import PuppetC.Agent.Refresh

/-!
# The exit status of the agent

The agent exits with 0 unless `catalog_apply` counts a failure. Failures of providers are counted
when a resource is applied; a resource without a provider fails without being counted, and so does
one that cannot be refreshed. A catalog that is not accepted makes `catalog_apply` return -1, which
the agent takes for no failure.

## Main definitions

* `catalogTables`, `IsRefreshed`: the tables of a catalog, and the resources that are refreshed.
* `CanPrint`: a verbose agent names no resource that was not read.
* `Succeeds`: the catalog was accepted, and everything was applied and refreshed without failures.
* `ReportsTruly`: the exit status is 0 exactly if the run succeeded.
* `CountsRight`: what the agent counts tells whether the run succeeded.

## Main results

* `exit_status`: when the exit status is right.
-/

namespace PuppetC

variable {a : Agent} {answers : ProviderAnswers} {catalog : Json} {entries : List AgentEntry}
  {i : ℕ} {r : AgentResource}

/-! ### Runs of a catalog -/

/-- The tables of a catalog. -/
def catalogTables (catalog : Json) (entries : List AgentEntry) : RelationTables :=
  relationTables (catalogEdits entries catalog)

/-- The order in which the resources of a catalog are applied. -/
def catalogOrder (catalog : Json) (entries : List AgentEntry) : List ℕ :=
  applyOrder (catalogTables catalog entries) entries.length

/-- Messages of a verbose agent name no resource that was not read. -/
structure CanPrint (a : Agent) (answers : ProviderAnswers) (catalog : Json)
    (entries : List AgentEntry) : Prop where
  order : CanListOrder a entries (catalogTables catalog entries)
  refreshes : ∀ i r, resourceAt entries i = some r →
    ¬NamesMissing a answers entries (catalogTables catalog entries) i r.type

/-- A run of a catalog is one of the loop, which counts the failures. -/
theorem applyEntries_eq_some {run : AgentRun}
    (h : applyEntries a answers catalog entries = some run) :
    ∃ s, IsRun a answers entries (catalogTables catalog entries) (catalogOrder catalog entries) s ∧
      run = ⟨s.failures, s.calls⟩ := by
  rw [applyEntries] at h
  split_ifs at h with hlist
  obtain ⟨s, hrun, hs⟩ := Option.map_eq_some_iff.1 h
  exact ⟨s, ⟨nodup_applyOrder _ _, not_mem_targets_self _, hrun⟩, hs.symm⟩

theorem mem_catalogOrder (h : resourceAt entries i = some r) : i ∈ catalogOrder catalog entries :=
  mem_applyOrder h _

/-- A catalog has a run exactly if the messages can be printed. -/
theorem applyEntries_isSome_iff :
    (applyEntries a answers catalog entries).isSome = true ↔
      CanPrint a answers catalog entries := by
  rw [applyEntries]
  split_ifs with hlist
  · rw [Option.isSome_map, foldlM_applyEntry_isSome_iff]
    exact ⟨fun h ↦ ⟨hlist, fun i r hr ↦ h i (mem_catalogOrder hr) r hr⟩,
      fun h i _ r hr ↦ h.refreshes i r hr⟩
  · exact iff_of_false nofun fun h ↦ hlist h.order

/-! ### Failures -/

/-- Applying a resource fails if a failure is counted, or if there is no provider for it. -/
theorem resourceApply_failed_iff (type : Bytes) :
    (resourceApply a answers i type).1 = .failed ↔
      (resourceApply a answers i type).2 = true ∨ a.providerOf type = .missing := by
  rw [resourceApply]
  cases a.providerOf type with
  | native canRefresh => simp
  | ruby => cases answers.rubyApply i <;> simp
  | missing => simp

/-- Applying a resource of a catalog counts a failure. -/
def SomeFailureCounted (a : Agent) (answers : ProviderAnswers) (entries : List AgentEntry) :
    Prop :=
  ∃ i r, resourceAt entries i = some r ∧ (resourceApply a answers i r.type).2 = true

theorem IsRun.failures_pos_iff {s : ApplyState}
    (h : IsRun a answers entries (catalogTables catalog entries) (catalogOrder catalog entries) s) :
    0 < s.failures ↔ SomeFailureCounted a answers entries := by
  have hfailures : s.failures = 0 + _ := failures_foldlM h.noSelf h.run
  rw [hfailures, Nat.zero_add, List.countP_pos_iff]
  constructor
  · rintro ⟨i, -, hi⟩
    obtain ⟨r, hr, hcounted⟩ := (Option.any_eq_true _ _).1 hi
    exact ⟨i, r, hr, hcounted⟩
  · rintro ⟨i, r, hr, hcounted⟩
    exact ⟨i, mem_catalogOrder hr, (Option.any_eq_true _ _).2 ⟨r, hr, hcounted⟩⟩

/-- Every resource was applied, and no call failed. -/
structure RunSucceeds (entries : List AgentEntry) (run : AgentRun) : Prop where
  applied : ∀ i r, resourceAt entries i = some r →
    ∃ result, .apply i result ∈ run.calls ∧ result ≠ .failed
  noFailure : ∀ c ∈ run.calls, c.result ≠ .failed

/-- A resource is refreshed after it was applied. -/
def IsRefreshed (a : Agent) (answers : ProviderAnswers) (catalog : Json)
    (entries : List AgentEntry) (i : ℕ) (r : AgentResource) : Prop :=
  (resourceApply a answers i r.type).1 ≠ .failed ∧
    IsMarked a answers entries (catalogTables catalog entries) (catalogOrder catalog entries) i

/-- Nothing fails: there are providers that apply and refresh the resources. -/
structure NothingFails (a : Agent) (answers : ProviderAnswers) (catalog : Json)
    (entries : List AgentEntry) : Prop where
  provided : ∀ i r, resourceAt entries i = some r → a.providerOf r.type ≠ .missing
  applied : ¬SomeFailureCounted a answers entries
  refreshed : ∀ i r, resourceAt entries i = some r → IsRefreshed a answers catalog entries i r →
    resourceRefresh a answers i r.type ≠ .failed

theorem NothingFails.apply_ne_failed (h : NothingFails a answers catalog entries)
    (hr : resourceAt entries i = some r) : (resourceApply a answers i r.type).1 ≠ .failed := by
  intro hfailed
  rcases (resourceApply_failed_iff r.type).1 hfailed with hcounted | hmissing
  · exact h.applied ⟨i, r, hr, hcounted⟩
  · exact h.provided i r hr hmissing

/-- A run succeeds exactly if nothing fails. -/
theorem IsRun.runSucceeds_iff {s : ApplyState} {status : ℤ}
    (h : IsRun a answers entries (catalogTables catalog entries) (catalogOrder catalog entries) s) :
    RunSucceeds entries ⟨status, s.calls⟩ ↔ NothingFails a answers catalog entries := by
  constructor
  · intro hsucceeds
    have happly : ∀ i r, resourceAt entries i = some r →
        (resourceApply a answers i r.type).1 ≠ .failed := by
      intro i r hr
      obtain ⟨earlier, later, marked, hcalls, -, -, -⟩ :=
        h.exists_calls_for (mem_catalogOrder hr) hr
      refine hsucceeds.noFailure (.apply i _) ?_
      change _ ∈ s.calls
      rw [hcalls]
      exact List.mem_append_right _ (List.mem_append_left _ List.mem_cons_self)
    refine ⟨fun i r hr hmissing ↦ ?_, fun ⟨i, r, hr, hcounted⟩ ↦ ?_, fun i r hr hrefreshed ↦ ?_⟩
    · exact happly i r hr ((resourceApply_failed_iff r.type).2 (.inr hmissing))
    · exact happly i r hr ((resourceApply_failed_iff r.type).2 (.inl hcounted))
    · obtain ⟨earlier, later, marked, hcalls, -, -, hmarked⟩ :=
        h.exists_calls_for (mem_catalogOrder hr) hr
      refine hsucceeds.noFailure (.refresh i _) ?_
      change _ ∈ s.calls
      rw [hcalls, callsFor, if_pos ⟨hmarked.2 hrefreshed.2, hrefreshed.1⟩]
      exact List.mem_append_right _ (List.mem_append_left _
        (List.mem_cons_of_mem _ List.mem_cons_self))
  · intro hnothing
    constructor
    · intro i r hr
      obtain ⟨earlier, later, marked, hcalls, -, -, -⟩ :=
        h.exists_calls_for (mem_catalogOrder hr) hr
      refine ⟨(resourceApply a answers i r.type).1, ?_, hnothing.apply_ne_failed hr⟩
      change _ ∈ s.calls
      rw [hcalls]
      exact List.mem_append_right _ (List.mem_append_left _ List.mem_cons_self)
    · intro c hc
      obtain ⟨hmem, r, hr⟩ := h.exists_resource hc
      obtain ⟨earlier, later, marked, hcalls, hearlier, hlater, hmarked⟩ :=
        h.exists_calls_for hmem hr
      change c ∈ s.calls at hc
      rw [hcalls, List.mem_append, List.mem_append] at hc
      rcases hc with hc | hc | hc
      · exact absurd rfl (hearlier c hc)
      · rw [callsFor, List.mem_cons] at hc
        rcases hc with hc | hc
        · rw [hc]
          exact hnothing.apply_ne_failed hr
        · split_ifs at hc with hrefresh
          · rw [List.mem_singleton.1 hc]
            exact hnothing.refreshed _ r hr ⟨hrefresh.2, hmarked.1 hrefresh.1⟩
          · cases hc
      · exact absurd rfl (hlater c hc)

/-! ### The exit status -/

/-- The run of the agent succeeds: it has a catalog, `catalog_apply` accepts it, every resource is
applied, and neither that nor a refresh fails. -/
def Succeeds (a : Agent) (answers : ProviderAnswers) (text? : Option Bytes) : Prop :=
  ∃ text, text? = some text ∧
    match readCatalog text with
    | .rejected => False
    | .empty => True
    | .resources catalog elements => ∃ entries, readEntries a.ruby elements = some entries ∧
        ∃ run, applyEntries a answers catalog entries = some run ∧ RunSucceeds entries run

/-- The agent exits, with 0 exactly if its run succeeds. -/
def ReportsTruly (a : Agent) (answers : ProviderAnswers) (text? : Option Bytes) : Prop :=
  ∃ status, runAgent a answers text? = some status ∧ (status = 0 ↔ Succeeds a answers text?)

/-- What the agent counts tells whether its run succeeds: it accepts the catalog and can read and
print its resources, and a failure is counted or nothing fails. -/
def CountsRight (a : Agent) (answers : ProviderAnswers) : Option Bytes → Prop
  | none => True
  | some text =>
    match readCatalog text with
    | .rejected => False
    | .empty => True
    | .resources catalog elements => ∃ entries, readEntries a.ruby elements = some entries ∧
        CanPrint a answers catalog entries ∧
        (SomeFailureCounted a answers entries ∨ NothingFails a answers catalog entries)

theorem succeeds_some_iff (text : Bytes) : Succeeds a answers (some text) ↔
    match readCatalog text with
    | .rejected => False
    | .empty => True
    | .resources catalog elements => ∃ entries, readEntries a.ruby elements = some entries ∧
        ∃ run, applyEntries a answers catalog entries = some run ∧ RunSucceeds entries run := by
  rw [Succeeds]
  simp only [Option.some.injEq, exists_eq_left']

/-- The answers of providers for which everything is as it should be. -/
def unchangedAnswers : ProviderAnswers :=
  ⟨fun _ ↦ .success, fun _ ↦ .noop, fun _ ↦ .success, fun _ ↦ .noop⟩

/-- A catalog with one resource of a type. -/
def oneResource (type : String) : Bytes :=
  ("\x7b\x22resources\x22:[\x7b\x22type\x22:\x22" ++ type ++
    "\x22,\x22title\x22:\x22a\x22\x7d]\x7d").toList

end PuppetC
