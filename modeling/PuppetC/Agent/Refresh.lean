import PuppetC.Agent.Apply

/-!
# Resources that are refreshed

A resource ends changed if applying it changes it, or if it is refreshed and that changes it; it is
refreshed if applying it did not fail and one before it that notifies it ended changed. The loop of
the agent follows this: in a run, a resource is applied once, and then refreshed once if it is to
be.

## Main definitions

* `EndsChanged`, `IsMarked`: which resources end changed, and which ones these notify.

## Main results

* `endsChanged_iff`: the resources with a call that changed them.
* `exists_calls_for`: the calls about a resource in a run.
-/

namespace PuppetC

section Refreshes

variable (a : Agent) (answers : ProviderAnswers) (entries : List AgentEntry) (t : RelationTables)
  (order : List ℕ)

/-- A resource ends changed: it is changed when it is applied, or when it is refreshed because of
one before it that ended changed. -/
inductive EndsChanged : ℕ → Prop where
  | apply {i : ℕ} {r : AgentResource} (hi : i ∈ order) (hr : resourceAt entries i = some r)
      (h : (resourceApply a answers i r.type).1.Changes) : EndsChanged i
  | refresh {i j : ℕ} {r : AgentResource} (hj : EndsChanged j) (hbefore : Precedes order j i)
      (htarget : i ∈ t.targets j) (hr : resourceAt entries i = some r)
      (happly : (resourceApply a answers i r.type).1 ≠ .failed)
      (h : (resourceRefresh a answers i r.type).Changes) : EndsChanged i

/-- A resource is notified by one before it that ends changed. -/
def IsMarked (i : ℕ) : Prop :=
  ∃ j, EndsChanged a answers entries t order j ∧ Precedes order j i ∧ i ∈ t.targets j

end Refreshes

variable {a : Agent} {answers : ProviderAnswers} {entries : List AgentEntry} {t : RelationTables}
  {order : List ℕ} {s : ApplyState} {i j : ℕ} {r : AgentResource}

theorem notMem_of_nodup {before after : List ℕ} (hnodup : (before ++ i :: after).Nodup) :
    i ∉ before ∧ i ∉ after :=
  ⟨fun hmem ↦ List.disjoint_of_nodup_append hnodup hmem List.mem_cons_self,
    (List.nodup_cons.1 (List.Nodup.of_append_right hnodup)).1⟩

theorem precedes_iff_mem {before after : List ℕ} (hnodup : (before ++ i :: after).Nodup) :
    Precedes (before ++ i :: after) j i ↔ j ∈ before := by
  obtain ⟨hbefore, hafter⟩ := notMem_of_nodup hnodup
  constructor
  · rintro ⟨l₁, l₂, heq, hj⟩
    rwa [((List.append_cons_inj_of_notMem hbefore hafter).1 heq).1]
  · exact fun hj ↦ ⟨before, after, rfl, hj⟩

/-- The run of the loop over an order without repetitions. -/
structure IsRun (a : Agent) (answers : ProviderAnswers) (entries : List AgentEntry)
    (t : RelationTables) (order : List ℕ) (s : ApplyState) : Prop where
  nodup : order.Nodup
  noSelf : ∀ i, i ∉ t.targets i
  run : order.foldlM (applyEntry a answers entries t) .start = some s

/-- A call changed a resource. -/
def HasChange (calls : List ResourceCall) (i : ℕ) : Prop :=
  ∃ c ∈ calls, c.index = i ∧ c.result.Changes

namespace IsRun

theorem exists_resource (h : IsRun a answers entries t order s) {c : ResourceCall}
    (hc : c ∈ s.calls) : c.index ∈ order ∧ ∃ r, resourceAt entries c.index = some r := by
  obtain ⟨later, hcalls, hindex⟩ := exists_calls_foldlM h.noSelf h.run
  change s.calls = later at hcalls
  exact hindex c (hcalls ▸ hc)

/-- The calls of a run around those about a resource. -/
theorem exists_split (h : IsRun a answers entries t order s) (hi : i ∈ order)
    (hr : resourceAt entries i = some r) :
    ∃ earlier later marked, s.calls = earlier ++ (callsFor a answers marked i r.type ++ later) ∧
      (∀ c ∈ earlier, Precedes order c.index i) ∧
      (∀ c ∈ later, c.index ≠ i ∧ ¬Precedes order c.index i) ∧
      (marked = true ↔ ∃ c ∈ earlier, c.result.Changes ∧ i ∈ t.targets c.index) := by
  obtain ⟨before, after, horder⟩ := List.append_of_mem hi
  subst horder
  obtain ⟨earlier, later, marked, hcalls, hearlier, hlater, hmarked⟩ :=
    exists_calls_split h.noSelf h.nodup hr h.run
  obtain ⟨-, hafter⟩ := notMem_of_nodup h.nodup
  refine ⟨earlier, later, marked, hcalls,
    fun c hc ↦ (precedes_iff_mem h.nodup).2 (hearlier c hc),
    fun c hc ↦ ⟨fun heq ↦ hafter (heq ▸ hlater c hc), fun hprecedes ↦ ?_⟩, hmarked⟩
  exact List.disjoint_of_nodup_append h.nodup ((precedes_iff_mem h.nodup).1 hprecedes)
    (List.mem_cons_of_mem i (hlater c hc))

/-- The number of resources before one. -/
theorem idxOf_lt (h : order.Nodup) (hprecedes : Precedes order j i) :
    order.idxOf j < order.idxOf i := by
  obtain ⟨before, after, rfl, hj⟩ := hprecedes
  obtain ⟨hbefore, -⟩ := notMem_of_nodup h
  rw [List.idxOf_append_of_mem hj, List.idxOf_append_of_notMem hbefore, List.idxOf_cons_self,
    Nat.add_zero]
  exact List.idxOf_lt_length_of_mem hj

/-- A resource with a call that changed it ends changed. -/
theorem endsChanged (h : IsRun a answers entries t order s) (hi : HasChange s.calls i) :
    EndsChanged a answers entries t order i := by
  -- induction on the place of the resource in the order
  induction hn : order.idxOf i using Nat.strong_induction_on generalizing i with
  | _ n ih =>
    obtain ⟨c, hc, rfl, hchanges⟩ := hi
    obtain ⟨hmem, r, hr⟩ := h.exists_resource hc
    obtain ⟨earlier, later, marked, hcalls, hearlier, hlater, hmarked⟩ := h.exists_split hmem hr
    rw [hcalls, List.mem_append, List.mem_append] at hc
    rcases hc with hc | hc | hc
    · exact absurd rfl ((hearlier c hc).ne h.nodup)
    · rw [callsFor, List.mem_cons] at hc
      rcases hc with hc | hc
      · rw [hc] at hchanges
        exact .apply hmem hr hchanges
      · split_ifs at hc with hrefresh
        · rw [List.mem_singleton.1 hc] at hchanges
          obtain ⟨c', hc', hchanges', htarget⟩ := hmarked.1 hrefresh.1
          have hbefore := hearlier c' hc'
          have hmem' : c' ∈ s.calls := by
            rw [hcalls]
            exact List.mem_append_left _ hc'
          exact .refresh (ih _ (hn ▸ idxOf_lt h.nodup hbefore) ⟨c', hmem', rfl, hchanges'⟩ rfl)
            hbefore htarget hr hrefresh.2 hchanges
        · cases hc
    · exact absurd rfl (hlater c hc).1

/-- A resource that ends changed has a call that changed it. -/
theorem hasChange (h : IsRun a answers entries t order s)
    (hi : EndsChanged a answers entries t order i) : HasChange s.calls i := by
  induction hi with
  | @apply i r hmem hr hchanges =>
    obtain ⟨earlier, later, marked, hcalls, -, -, -⟩ := h.exists_split hmem hr
    refine ⟨.apply i (resourceApply a answers i r.type).1, ?_, rfl, hchanges⟩
    rw [hcalls]
    exact List.mem_append_right _ (List.mem_append_left _ List.mem_cons_self)
  | @refresh i j r _ hbefore htarget hr happly hchanges ih =>
    have hmem : i ∈ order := by
      obtain ⟨before, after, rfl, -⟩ := hbefore
      exact List.mem_append_right _ List.mem_cons_self
    obtain ⟨c, hc, rfl, hc'⟩ := ih
    obtain ⟨earlier, later, marked, hcalls, -, hlater, hmarked⟩ := h.exists_split hmem hr
    have hearlier : c ∈ earlier := by
      rw [hcalls, List.mem_append, List.mem_append] at hc
      rcases hc with hc | hc | hc
      · exact hc
      · exact absurd (index_of_mem_callsFor hc) (hbefore.ne h.nodup)
      · exact absurd hbefore (hlater c hc).2
    have hrefresh := And.intro (hmarked.2 ⟨c, hearlier, hc', htarget⟩) happly
    refine ⟨.refresh i (resourceRefresh a answers i r.type), ?_, rfl, hchanges⟩
    rw [hcalls, callsFor, if_pos hrefresh]
    exact List.mem_append_right _ (List.mem_append_left _
      (List.mem_cons_of_mem _ List.mem_cons_self))

/-- The resources that end changed are those with a call that changed them. -/
theorem endsChanged_iff (h : IsRun a answers entries t order s) :
    EndsChanged a answers entries t order i ↔ HasChange s.calls i :=
  ⟨h.hasChange, h.endsChanged⟩

/-- A resource is applied once in a run, and then refreshed if it is marked and applying it did not
fail. -/
theorem exists_calls_for (h : IsRun a answers entries t order s) (hi : i ∈ order)
    (hr : resourceAt entries i = some r) :
    ∃ earlier later marked, s.calls = earlier ++ (callsFor a answers marked i r.type ++ later) ∧
      (∀ c ∈ earlier, c.index ≠ i) ∧ (∀ c ∈ later, c.index ≠ i) ∧
      (marked = true ↔ IsMarked a answers entries t order i) := by
  obtain ⟨earlier, later, marked, hcalls, hearlier, hlater, hmarked⟩ := h.exists_split hi hr
  refine ⟨earlier, later, marked, hcalls, fun c hc ↦ (hearlier c hc).ne h.nodup,
    fun c hc ↦ (hlater c hc).1, hmarked.trans ⟨?_, ?_⟩⟩
  · rintro ⟨c, hc, hchanges, htarget⟩
    have hmem : c ∈ s.calls := by
      rw [hcalls]
      exact List.mem_append_left _ hc
    exact ⟨c.index, h.endsChanged ⟨c, hmem, rfl, hchanges⟩, hearlier c hc, htarget⟩
  · rintro ⟨j, hj, hbefore, htarget⟩
    obtain ⟨c, hc, rfl, hchanges⟩ := h.hasChange hj
    rw [hcalls, List.mem_append, List.mem_append] at hc
    rcases hc with hc | hc | hc
    · exact ⟨c, hc, hchanges, htarget⟩
    · exact absurd (index_of_mem_callsFor hc) (hbefore.ne h.nodup)
    · exact absurd hbefore (hlater c hc).2

end IsRun

end PuppetC
