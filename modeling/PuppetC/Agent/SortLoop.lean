import PuppetC.Support.TopologicalSort
import PuppetC.Agent.Relationships

/-!
# The loops of the topological sort

The agent sorts its resources with counters and a queue in arrays of as many cells as there are
resources. The counters are unsigned, so one that is decremented below zero would never be zero
again, and the queue has no room for a resource that is queued twice. Both are faults here.

## Main definitions

* `IsDependencyLists`: what `add_dependency` maintains.
* `SortFault`, `SortState`, `settleDeps`, `sortLoop`, `topologicalSortLoops`: `topological_sort`.

## Main results

* `Runs.step`: one turn of the main loop is a step of the algorithm.
* `topologicalSortLoops_eq`: the loops find the order of the algorithm.
* `kahn_sort`: without faults, and an order exactly if there is no cycle.
* `topologicalSortLoops_catalog`: the order of the resources of a catalog.
-/

namespace PuppetC

/-! ### The loops -/

/-- What must not happen in the loops; `unfinished` is for too few turns of the main loop. -/
inductive SortFault where
  | queueFull
  | belowZero
  | unfinished
  deriving DecidableEq

/-- The variables of the function: the queue up to `queue_tail`, `queue_head`, and the result up to
`result_count`. -/
structure SortState where
  inDegree : ℕ → ℕ
  queue : List ℕ
  head : ℕ
  result : List ℕ

/-- The dependencies of an entry. -/
def depsOf (entries : List (List ℕ)) (i : ℕ) : List ℕ := entries.getD i []

/-- `queue[queue_tail++] = i`. -/
def SortState.enqueue (count : ℕ) (s : SortState) (i : ℕ) : Except SortFault SortState :=
  if s.queue.length < count then .ok { s with queue := s.queue ++ [i] } else .error .queueFull

/-- The loop over the dependencies of an entry, which ends at the one that is done. -/
def settleDeps (count done i : ℕ) : List ℕ → SortState → Except SortFault SortState
  | [], s => .ok s
  | d :: ds, s =>
    if d = done then
      if s.inDegree i = 0 then .error .belowZero
      else
        let s := { s with inDegree := Function.update s.inDegree i (s.inDegree i - 1) }
        if s.inDegree i = 0 then s.enqueue count i else .ok s
    else settleDeps count done i ds s

/-- The loop over the entries after one is done. -/
def settleEntries (entries : List (List ℕ)) (done : ℕ) (s : SortState) :
    Except SortFault SortState :=
  (List.range entries.length).foldlM
    (fun s i ↦ settleDeps entries.length done i (depsOf entries i) s) s

/-- The main loop, for some turns at most. -/
def sortLoop (entries : List (List ℕ)) : (turns : ℕ) → SortState → Except SortFault SortState
  | turns, s =>
    match s.queue[s.head]? with
    | none => .ok s
    | some done =>
      match turns with
      | 0 => .error .unfinished
      | turns + 1 => do
        let s ← settleEntries entries done
          { s with head := s.head + 1, result := s.result ++ [done] }
        sortLoop entries turns s

/-- `topological_sort`; the result is none for `NULL`. -/
def topologicalSortLoops (entries : List (List ℕ)) (turns : ℕ) :
    Except SortFault (Option (List ℕ)) := do
  let start : SortState := ⟨fun i ↦ (depsOf entries i).length, [], 0, []⟩
  let s ← (List.range entries.length).foldlM
    (fun s i ↦ if s.inDegree i = 0 then s.enqueue entries.length i else .ok s) start
  let s ← sortLoop entries turns s
  return if s.result.length ≠ entries.length then none else some s.result

/-! ### The lists of dependencies -/

/-- What `add_dependency` maintains: no resource is listed twice, none depends on itself, and the
indices are those of resources. -/
structure IsDependencyLists (entries : List (List ℕ)) : Prop where
  nodup : ∀ ds ∈ entries, ds.Nodup
  irrefl : ∀ i, i ∉ depsOf entries i
  lt : ∀ ds ∈ entries, ∀ d ∈ ds, d < entries.length

section Lists

variable {entries : List (List ℕ)} {i d : ℕ}

theorem depsOf_mem_or (entries : List (List ℕ)) (i : ℕ) :
    depsOf entries i = [] ∨ depsOf entries i ∈ entries := by
  rw [depsOf, List.getD_eq_getElem?_getD]
  cases h : entries[i]? with
  | none => exact Or.inl rfl
  | some ds => exact Or.inr (List.mem_of_getElem? h)

theorem IsDependencyLists.nodup_depsOf (h : IsDependencyLists entries) (i : ℕ) :
    (depsOf entries i).Nodup := by
  rcases depsOf_mem_or entries i with hnil | hmem
  · rw [hnil]
    exact List.nodup_nil
  · exact h.nodup _ hmem

theorem IsDependencyLists.lt_of_mem (h : IsDependencyLists entries) (hd : d ∈ depsOf entries i) :
    i < entries.length ∧ d < entries.length := by
  constructor
  · by_contra hi
    rw [depsOf, List.getD_eq_getElem?_getD, List.getElem?_eq_none (not_lt.1 hi)] at hd
    cases hd
  · rcases depsOf_mem_or entries i with hnil | hmem
    · rw [hnil] at hd
      cases hd
    · exact h.lt _ hmem d hd

end Lists

/-! ### One turn -/

section Turn

variable {entries : List (List ℕ)} {s : SortState} {count done i : ℕ}

/-- The state without positions: the entries of the queue that are left. -/
def SortState.sorting (s : SortState) : Sorting ℕ := ⟨s.inDegree, s.queue.drop s.head, s.result⟩

/-- An entry of the queue is done, and its dependents are settled next. -/
theorem settleDeps_eq {ds : List ℕ} (hpos : done ∈ ds → 0 < s.inDegree i)
    (hroom : done ∈ ds → s.inDegree i - 1 = 0 → s.queue.length < count) :
    settleDeps count done i ds s =
      if done ∈ ds then
        .ok { s with
          inDegree := Function.update s.inDegree i (s.inDegree i - 1)
          queue := if s.inDegree i - 1 = 0 then s.queue ++ [i] else s.queue }
      else .ok s := by
  induction ds with
  | nil => rw [settleDeps, if_neg List.not_mem_nil]
  | cons d ds ih =>
    rw [settleDeps]
    by_cases hd : d = done
    · have hmem : done ∈ d :: ds := hd ▸ List.mem_cons_self
      have hne : s.inDegree i ≠ 0 := (hpos hmem).ne'
      rw [if_pos hd, if_neg hne, if_pos hmem]
      simp only [Function.update_self]
      split_ifs with hzero
      · rw [SortState.enqueue, if_pos (hroom hmem hzero)]
      · rfl
    · have hmem : done ∈ d :: ds ↔ done ∈ ds := by
        rw [List.mem_cons, or_iff_right (Ne.symm hd)]
      rw [if_neg hd, ih (fun h ↦ hpos (hmem.2 h)) fun h ↦ hroom (hmem.2 h)]
      simp only [hmem]

/-- The loop over entries is the one of the algorithm, if no counter is zero that is decremented,
and the queue has room at the end. -/
theorem foldlM_settleDeps (count done : ℕ) {is : List ℕ} (his : is.Nodup) (s : SortState)
    (hpos : ∀ i ∈ is, done ∈ depsOf entries i → 0 < s.inDegree i)
    (hroom : (is.foldl (Sorting.settle (depsOf entries) done)
      (s.inDegree, s.queue)).2.length ≤ count) :
    is.foldlM (fun s i ↦ settleDeps count done i (depsOf entries i) s) s =
      .ok { s with
        inDegree := (is.foldl (Sorting.settle (depsOf entries) done) (s.inDegree, s.queue)).1
        queue := (is.foldl (Sorting.settle (depsOf entries) done) (s.inDegree, s.queue)).2 } := by
  induction is generalizing s with
  | nil => rfl
  | cons i is ih =>
    obtain ⟨hi, his⟩ := List.nodup_cons.1 his
    rw [List.forall_mem_cons] at hpos
    -- The queue only grows.
    have hgrows (p : (ℕ → ℕ) × List ℕ) :
        p.2.length ≤ (is.foldl (Sorting.settle (depsOf entries) done) p).2.length := by
      rw [Sorting.foldl_settle done his, List.length_append]
      omega
    rw [List.foldl_cons] at hroom ⊢
    by_cases hdone : done ∈ depsOf entries i
    · have hsettle : Sorting.settle (depsOf entries) done (s.inDegree, s.queue) i =
          (Function.update s.inDegree i (s.inDegree i - 1),
            if s.inDegree i - 1 = 0 then s.queue ++ [i] else s.queue) := if_pos hdone
      rw [hsettle] at hroom ⊢
      have hroom' : done ∈ depsOf entries i → s.inDegree i - 1 = 0 → s.queue.length < count := by
        intro _ hzero
        have hle := (hgrows _).trans hroom
        rw [if_pos hzero, List.length_append, List.length_singleton] at hle
        exact hle
      rw [List.foldlM_cons, settleDeps_eq hpos.1 hroom', if_pos hdone]
      refine ih his _ (fun j hj hdone' ↦ ?_) hroom
      change 0 < Function.update s.inDegree i (s.inDegree i - 1) j
      rw [Function.update_of_ne (fun hji : j = i ↦ hi (hji ▸ hj))]
      exact hpos.2 j hj hdone'
    · have hsettle : Sorting.settle (depsOf entries) done (s.inDegree, s.queue) i =
          (s.inDegree, s.queue) := if_neg hdone
      rw [hsettle] at hroom ⊢
      rw [List.foldlM_cons, settleDeps_eq (fun h ↦ absurd h hdone) fun h ↦ absurd h hdone,
        if_neg hdone]
      exact ih his s hpos.2 hroom

/-- What holds before every turn: the state is sound, and what was done is the queue up to its
head. -/
structure Runs (entries : List (List ℕ)) (s : SortState) : Prop where
  sound : s.sorting.Sound (depsOf entries) (List.range entries.length)
  result_eq : s.result = s.queue.take s.head
  head_le : s.head ≤ s.queue.length

/-- One turn is a step of the algorithm, without faults. -/
theorem Runs.step (hlists : IsDependencyLists entries) (h : Runs entries s)
    (hdone : s.queue[s.head]? = some done) :
    ∃ s', settleEntries entries done { s with head := s.head + 1, result := s.result ++ [done] } =
        .ok s' ∧ Runs entries s' ∧ s'.head = s.head + 1 ∧
      s'.sorting = s.sorting.step (depsOf entries) (List.range entries.length) := by
  obtain ⟨hlt, hget⟩ := List.getElem?_eq_some_iff.1 hdone
  have hqueue : s.sorting.queue = done :: s.queue.drop (s.head + 1) := by
    rw [SortState.sorting, List.drop_eq_getElem_cons hlt, hget]
  have hsound := h.sound.step List.nodup_range hlists.nodup_depsOf
  set new := (List.range entries.length).filter fun i ↦
    done ∈ depsOf entries i ∧ s.inDegree i - 1 = 0 with hnew
  set inDegree := fun i ↦
    if i ∈ List.range entries.length ∧ done ∈ depsOf entries i then s.inDegree i - 1
    else s.inDegree i with hinDegree
  have hfold (queue : List ℕ) :
      (List.range entries.length).foldl (Sorting.settle (depsOf entries) done)
        (s.inDegree, queue) = (inDegree, queue ++ new) :=
    Sorting.foldl_settle done List.nodup_range _
  have hstep : s.sorting.step (depsOf entries) (List.range entries.length) =
      ⟨inDegree, s.queue.drop (s.head + 1) ++ new, s.result ++ [done]⟩ := by
    have hfold' := hfold (s.queue.drop (s.head + 1))
    rw [Sorting.step, hqueue]
    change Sorting.mk
      ((List.range entries.length).foldl (Sorting.settle (depsOf entries) done)
        (s.inDegree, s.queue.drop (s.head + 1))).1
      ((List.range entries.length).foldl (Sorting.settle (depsOf entries) done)
        (s.inDegree, s.queue.drop (s.head + 1))).2 (s.result ++ [done]) = _
    rw [hfold']
  -- The one that is done was not done before, so its dependents wait for it.
  have hnodup := h.sound.nodup
  rw [hqueue] at hnodup
  have hnot : done ∉ s.result := fun hin ↦
    List.disjoint_of_nodup_append hnodup hin List.mem_cons_self
  have hpos : ∀ i ∈ List.range entries.length, done ∈ depsOf entries i → 0 < s.inDegree i := by
    intro i hi hin
    have hcount := h.sound.inDegree i hi
    change s.inDegree i = _ at hcount
    rw [hcount, List.countP_pos_iff]
    exact ⟨done, hin, decide_eq_true hnot⟩
  have hresult : s.result.length = s.head := by
    rw [h.result_eq, List.length_take, Nat.min_eq_left h.head_le]
  have hroom : (s.queue ++ new).length ≤ entries.length := by
    have hle := hsound.length_le
    rw [hstep, List.length_range] at hle
    simp only [List.length_append, List.length_drop, List.length_singleton, hresult] at hle
    rw [List.length_append]
    omega
  have hsorting : (⟨inDegree, s.queue ++ new, s.head + 1, s.result ++ [done]⟩ : SortState).sorting =
      s.sorting.step (depsOf entries) (List.range entries.length) := by
    rw [hstep, SortState.sorting, List.drop_append_of_le_length hlt]
  refine ⟨_, ?_, ⟨hsorting ▸ hsound, ?_, ?_⟩, rfl, hsorting⟩
  · have hloop := foldlM_settleDeps entries.length done List.nodup_range
      ⟨s.inDegree, s.queue, s.head + 1, s.result ++ [done]⟩ hpos (by rw [hfold]; exact hroom)
    rw [hfold] at hloop
    exact hloop
  · change s.result ++ [done] = (s.queue ++ new).take (s.head + 1)
    rw [List.take_append_of_le_length hlt, List.take_succ_eq_append_getElem hlt, hget,
      ← h.result_eq]
  · change s.head + 1 ≤ (s.queue ++ new).length
    rw [List.length_append]
    omega

/-- The algorithm stays where its queue is empty. -/
theorem step_of_queue_eq_nil {deps : ℕ → List ℕ} {nodes : List ℕ} {s : Sorting ℕ}
    (h : s.queue = []) (k : ℕ) : (Sorting.step deps nodes)^[k] s = s :=
  Function.iterate_fixed (by rw [Sorting.step, h]) k

theorem Runs.length_queue_le (h : Runs entries s) : s.queue.length ≤ entries.length := by
  have hle := h.sound.length_le
  have hresult : s.sorting.result.length = s.head := by
    change s.result.length = s.head
    rw [h.result_eq, List.length_take, Nat.min_eq_left h.head_le]
  have hqueue : s.sorting.queue.length = s.queue.length - s.head := List.length_drop
  have hhead := h.head_le
  rw [List.length_append, hresult, hqueue, List.length_range] at hle
  omega

/-- The main loop does the steps of the algorithm, if it may take a turn for every entry that is not
done. -/
theorem Runs.sortLoop (hlists : IsDependencyLists entries) (turns : ℕ) {s : SortState}
    (h : Runs entries s) (hturns : entries.length ≤ s.head + turns) :
    ∃ s', PuppetC.sortLoop entries turns s = .ok s' ∧
      s'.sorting = (Sorting.step (depsOf entries) (List.range entries.length))^[turns]
        s.sorting := by
  induction turns generalizing s with
  | zero =>
    have hle := h.length_queue_le
    have hnone : s.queue[s.head]? = none := List.getElem?_eq_none (by omega)
    refine ⟨s, ?_, rfl⟩
    rw [PuppetC.sortLoop, hnone]
  | succ turns ih =>
    cases hdone : s.queue[s.head]? with
    | none =>
      have hnil : s.sorting.queue = [] := List.drop_eq_nil_of_le (List.getElem?_eq_none_iff.1 hdone)
      refine ⟨s, ?_, (step_of_queue_eq_nil hnil _).symm⟩
      rw [PuppetC.sortLoop, hdone]
    | some done =>
      obtain ⟨s₁, hentries, hruns, hhead, hsorting⟩ := h.step hlists hdone
      obtain ⟨s', hloop, hs'⟩ := ih hruns (by omega)
      refine ⟨s', ?_, ?_⟩
      · rw [PuppetC.sortLoop, hdone]
        dsimp only
        rw [hentries]
        exact hloop
      · rw [hs', hsorting, Function.iterate_succ_apply]

end Turn

/-! ### The order -/

section Order

variable {entries : List (List ℕ)}

/-- The entries without dependencies are queued at the start. -/
theorem foldlM_start (is : List ℕ) {s : SortState} {count : ℕ}
    (hroom : s.queue.length + is.length ≤ count) :
    is.foldlM (fun s i ↦ if s.inDegree i = 0 then s.enqueue count i else .ok s) s =
      .ok { s with queue := s.queue ++ is.filter fun i ↦ s.inDegree i = 0 } := by
  induction is generalizing s with
  | nil =>
    rw [List.filter_nil, List.append_nil]
    rfl
  | cons i is ih =>
    rw [List.length_cons] at hroom
    rw [List.foldlM_cons]
    by_cases hzero : s.inDegree i = 0
    · have henqueue : s.enqueue count i = .ok { s with queue := s.queue ++ [i] } :=
        if_pos (by omega)
      rw [if_pos hzero, henqueue, List.filter_cons_of_pos (by simpa using hzero)]
      refine (ih (s := { s with queue := s.queue ++ [i] }) ?_).trans ?_
      · rw [List.length_append, List.length_singleton]
        omega
      · rw [List.append_assoc, List.singleton_append]
    · rw [if_neg hzero, List.filter_cons_of_neg (by simpa using hzero)]
      exact ih (by omega)

/-- The loops find the order of the algorithm. -/
theorem topologicalSortLoops_eq (hlists : IsDependencyLists entries) {turns : ℕ}
    (hturns : entries.length ≤ turns) :
    topologicalSortLoops entries turns =
      .ok (topologicalOrder (depsOf entries) (List.range entries.length)) := by
  have hlength : (List.range entries.length).length ≤ entries.length := List.length_range.le
  have hstart := foldlM_start (List.range entries.length)
    (s := ⟨fun i ↦ (depsOf entries i).length, [], 0, []⟩) ((Nat.zero_add _).trans_le hlength)
  rw [List.nil_append] at hstart
  set s : SortState := ⟨fun i ↦ (depsOf entries i).length,
    (List.range entries.length).filter fun i ↦ (depsOf entries i).length = 0, 0, []⟩ with hs
  have hsorting : s.sorting = Sorting.start (depsOf entries) (List.range entries.length) := rfl
  have hruns : Runs entries s := by
    refine ⟨?_, rfl, Nat.zero_le _⟩
    rw [hsorting]
    exact Sorting.sound_start List.nodup_range
  obtain ⟨s', hloop, hs'⟩ := hruns.sortLoop hlists turns (by omega)
  -- The algorithm has ended after as many steps as there are entries.
  have hend := Sorting.queue_iterate_length (List.nodup_range (n := entries.length))
    hlists.nodup_depsOf
  rw [List.length_range] at hend
  have hsame : s'.result = ((Sorting.step (depsOf entries)
      (List.range entries.length))^[entries.length]
        (Sorting.start (depsOf entries) (List.range entries.length))).result := by
    obtain ⟨k, rfl⟩ := Nat.exists_eq_add_of_le' hturns
    rw [hsorting, Function.iterate_add_apply, step_of_queue_eq_nil hend] at hs'
    exact congrArg Sorting.result hs'
  rw [topologicalSortLoops, hstart]
  change (sortLoop entries turns s >>= fun s ↦
    Except.ok (if s.result.length ≠ entries.length then none else some s.result)) = _
  rw [hloop]
  change Except.ok (if s'.result.length ≠ entries.length then none else some s'.result) = _
  rw [topologicalOrder, List.length_range, hsame, ite_not]

/-- The order of two elements of an order that respects a relation. -/
theorem Respects.precedes {R : ℕ → ℕ → Prop} {order : List ℕ} (h : Respects R order) {i d : ℕ}
    (hi : i ∈ order) (hd : R i d) : Precedes order d i :=
  h.precedes_of_transGen hi (Relation.TransGen.single hd)

/-- The sort ends without faults, finds an order exactly if the dependencies have no cycle, and the
order is one of all resources, each after what it depends on. -/
theorem kahn_sort (entries : List (List ℕ)) (hlists : IsDependencyLists entries) :
    ∃ found : Option (List ℕ),
      (∀ turns, entries.length ≤ turns → topologicalSortLoops entries turns = .ok found) ∧
      (found = none ↔ ∃ i, Relation.TransGen (fun i d ↦ d ∈ depsOf entries i) i i) ∧
      ∀ order, found = some order → order.Perm (List.range entries.length) ∧
        ∀ i < entries.length, ∀ d ∈ depsOf entries i, Precedes order d i := by
  refine ⟨_, fun turns hturns ↦ topologicalSortLoops_eq hlists hturns, ?_, fun order horder ↦ ?_⟩
  · have hclosed : ∀ i d, d ∈ depsOf entries i →
        i ∈ List.range entries.length ∧ d ∈ List.range entries.length := fun i d hd ↦ by
      rw [List.mem_range, List.mem_range]
      exact hlists.lt_of_mem hd
    have hsome := topologicalOrder_isSome_iff List.nodup_range hlists.nodup_depsOf hclosed
    rw [← Option.not_isSome_iff_eq_none, hsome, Acyclic, not_forall]
    exact exists_congr fun i ↦ not_not
  · obtain ⟨hperm, hrespects⟩ := topologicalOrder_eq_some List.nodup_range hlists.nodup_depsOf horder
    refine ⟨hperm, fun i hi d hd ↦ ?_⟩
    exact hrespects.precedes (hperm.mem_iff.2 (List.mem_range.2 hi)) hd

/-- Two resources, of which the first depends on the second. -/
theorem kahn_sort_pair :
    IsDependencyLists [[1], []] ∧ ∃ found : Option (List ℕ),
      (∀ turns, 2 ≤ turns → topologicalSortLoops [[1], []] turns = .ok found) ∧
      (found = none ↔ ∃ i, Relation.TransGen (fun i d ↦ d ∈ depsOf [[1], []] i) i i) ∧
      ∀ order, found = some order → order.Perm (List.range 2) ∧
        ∀ i < 2, ∀ d ∈ depsOf [[1], []] i, Precedes order d i := by
  have hlists : IsDependencyLists [[1], []] := by
    refine ⟨by simp, fun i hi ↦ ?_, by simp⟩
    match i with
    | 0 | 1 | _ + 2 => simp [depsOf] at hi
  exact ⟨hlists, kahn_sort [[1], []] hlists⟩

end Order

/-! ### The resources of a catalog -/

section Catalog

variable (entries : List AgentEntry) (catalog : Json)

/-- The lists of dependencies of the resources of a catalog. -/
def dependencyLists : List (List ℕ) :=
  (List.range entries.length).map (relationTables (catalogEdits entries catalog)).deps

theorem depsOf_dependencyLists :
    depsOf (dependencyLists entries catalog) =
      (relationTables (catalogEdits entries catalog)).deps := by
  funext i
  rw [depsOf, dependencyLists, List.getD_eq_getElem?_getD, List.getElem?_map]
  by_cases hi : i < entries.length
  · rw [List.getElem?_range hi]
    rfl
  · rw [List.getElem?_eq_none (by simpa using hi)]
    refine (List.eq_nil_iff_forall_not_mem.2 fun d hd ↦ hi ?_).symm
    exact (catalogEdits_lt (mem_deps hd).1).1

/-- What `add_dependency` makes of a catalog are such lists. -/
theorem isDependencyLists_catalog : IsDependencyLists (dependencyLists entries catalog) where
  nodup ds hds := by
    obtain ⟨i, -, rfl⟩ := List.mem_map.1 hds
    exact nodup_deps _ i
  irrefl i hi := by
    rw [depsOf_dependencyLists] at hi
    exact (mem_deps hi).2 rfl
  lt ds hds d hd := by
    obtain ⟨i, -, rfl⟩ := List.mem_map.1 hds
    rw [dependencyLists, List.length_map, List.length_range]
    exact (catalogEdits_lt (mem_deps hd).1).2

/-- The order of the resources of a catalog is the one that the loops find. -/
theorem topologicalSortLoops_catalog {turns : ℕ} (hturns : entries.length ≤ turns) :
    topologicalSortLoops (dependencyLists entries catalog) turns =
      .ok (topologicalSort (relationTables (catalogEdits entries catalog)) entries.length) := by
  have hlength : (dependencyLists entries catalog).length = entries.length := by
    rw [dependencyLists, List.length_map, List.length_range]
  rw [topologicalSortLoops_eq (isDependencyLists_catalog entries catalog) (hlength ▸ hturns),
    depsOf_dependencyLists, hlength, topologicalSort]

end Catalog

end PuppetC
