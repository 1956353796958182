import PuppetC.Agent.Resource
import PuppetC.Support.BoundedTable
import PuppetC.Support.TopologicalSort

/-!
# The relationships between the resources of a catalog

The agent reads from a catalog which resources depend on which, and which notify which. The
functions that do so answer the entries they make, in their order; the tables of every resource
have room for 64 of them.

## Main definitions

* `AgentEntry`, `findResourceIndex`: `resource_entry_t`, `find_resource_index`.
* `parseResourceRef`, `getParentPath`: `parse_resource_ref`, `get_parent_path`.
* `TableEdit`, `RelationTables.apply`: `add_dependency`, `add_notify`.
* `extractDependencies`, `extractEdges`, `addFileAutorequires`: the entries that they make.
* `relationTables`, `topologicalSort`: the tables, and the order of the resources.

## Main results

* `mem_deps`, `mem_targets`: what is in the tables was entered.
* `mem_deps_iff`, `mem_targets_iff`: everything is, if it fits.
* `topologicalSort_eq_some`, `topologicalSort_isSome_iff`: the order.
-/

namespace PuppetC

/-! ### Entries and references -/

/-- An element of the resources of a catalog, with the resource that is read from it. -/
structure AgentEntry where
  element : Json
  resource : Option AgentResource

/-- `find_resource_index`. -/
def findResourceIndex (entries : List AgentEntry) (type title : Bytes) : Option ℕ :=
  entries.findIdx? fun e ↦
    match e.resource with
    | some r => equalNoCase r.type type && r.title = title
    | none => false

/-- `parse_resource_ref`, with buffers of 64 and 256 bytes. -/
def parseResourceRef (ref : Bytes) : Option (Bytes × Bytes) :=
  let type := ref.takeWhile (· ≠ '[')
  match ref.dropWhile (· ≠ '[') with
  | [] => none
  | _ :: rest =>
    if 64 ≤ type.length then none
    else
      match rest.reverse.dropWhile (· ≠ ']') with
      | [] | [_] => none
      | _ :: title => if 256 ≤ title.length then none else some (type, title.reverse)

/-- `get_parent_path`, of a path that starts with a slash. -/
def getParentPath (path : Bytes) : Bytes :=
  match (path.reverse.dropWhile (· ≠ '/')).tail.reverse with
  | [] => ['/']
  | parent => parent

/-- The texts in the value of a relationship parameter: a string, or the strings in an array. -/
def referenceTexts : Json → List Bytes
  | .string ref => [ref]
  | .array vs => vs.filterMap fun v ↦
    match v with
    | .string ref => some ref
    | _ => none
  | _ => []

/-- The resources that a relationship parameter refers to. -/
def relatedIndices (entries : List AgentEntry) (params : Json) (name : String) : List ℕ :=
  (((params.get? name.toList).map referenceTexts).getD []).filterMap fun ref ↦ do
    let (type, title) ← parseResourceRef ref
    findResourceIndex entries type title

/-! ### Entries in the tables -/

/-- An entry in a table: a resource depends on another one, or notifies it. -/
inductive TableEdit where
  | dependency (dependent dependee : ℕ)
  | notify (source target : ℕ)
  deriving DecidableEq

/-- `extract_dependencies`. -/
def extractDependencies (entries : List AgentEntry) (index : ℕ) (element : Json) :
    List TableEdit :=
  match element.get? "parameters".toList with
  | some (.object ms) =>
    let related := relatedIndices entries (.object ms)
    (related "require").map (fun d ↦ .dependency index d) ++
      (related "before").map (fun i ↦ .dependency i index) ++
      (related "notify").flatMap (fun i ↦ [.dependency i index, .notify index i]) ++
      (related "subscribe").flatMap (fun d ↦ [.dependency index d, .notify d index])
  | _ => []

/-- The resource at one end of an edge. -/
def edgeEnd (entries : List AgentEntry) (edge : Json) (name : String) : Option ℕ :=
  match edge.get? name.toList with
  | none => none
  | some v =>
    match v.get? "type".toList, v.get? "title".toList with
    | some (.string type), some (.string title) => findResourceIndex entries type title
    | _, _ => none

/-- An edge that notifies its target. -/
def isNotifyingEdge (edge : Json) : Bool :=
  match edge.get? "relationship".toList with
  | some (.string rel) => rel = "notifies".toList || rel = "notify".toList
  | _ => false

/-- `extract_edges`. -/
def extractEdges (entries : List AgentEntry) (catalog : Json) : List TableEdit :=
  match catalog.get? "edges".toList with
  | some (.array edges) => edges.flatMap fun edge ↦
    match edgeEnd entries edge "source", edgeEnd entries edge "target" with
    | some source, some target =>
      .dependency target source :: if isNotifyingEdge edge then [.notify source target] else []
    | _, _ => []
  | _ => []

/-- The path that `add_file_autorequires` takes for the one of a file resource. -/
def AgentResource.path (r : AgentResource) : Bytes :=
  match r.param? "path" with
  | some (c :: cs) => c :: cs
  | _ => r.title

/-- The file resource for the parent directory of another one, as `add_file_autorequires` finds
it: by its title. -/
def autorequired (entries : List AgentEntry) (r : AgentResource) : Option ℕ :=
  if equalNoCase r.type "file".toList ∧ r.path.head? = some '/' ∧
      1 < (getParentPath r.path).length then
    findResourceIndex entries "file".toList (getParentPath r.path)
  else none

/-- `add_file_autorequires`. -/
def addFileAutorequires (entries : List AgentEntry) : List TableEdit :=
  entries.zipIdx.flatMap fun e ↦
    match e.1.resource.bind (autorequired entries) with
    | some parent => [.dependency e.2 parent]
    | none => []

/-- All entries that are made for a catalog. -/
def catalogEdits (entries : List AgentEntry) (catalog : Json) : List TableEdit :=
  entries.zipIdx.flatMap (fun e ↦ extractDependencies entries e.2 e.1.element) ++
    extractEdges entries catalog ++ addFileAutorequires entries

/-! ### The tables -/

/-- The tables `deps` and `notify_targets` of every resource. -/
structure RelationTables where
  deps : ℕ → List ℕ
  targets : ℕ → List ℕ

/-- `add_dependency`, `add_notify`: a resource is not related to itself. -/
def RelationTables.apply (t : RelationTables) : TableEdit → RelationTables
  | .dependency i d =>
    if i = d then t else { t with deps := Function.update t.deps i (tableAdd 64 (t.deps i) d) }
  | .notify s i =>
    if s = i then t
    else { t with targets := Function.update t.targets s (tableAdd 64 (t.targets s) i) }

/-- The tables after entries were made. -/
def relationTables (edits : List TableEdit) : RelationTables :=
  edits.foldl RelationTables.apply ⟨fun _ ↦ [], fun _ ↦ []⟩

/-- `topological_sort`, of `count` resources. -/
def topologicalSort (t : RelationTables) (count : ℕ) : Option (List ℕ) :=
  topologicalOrder t.deps (List.range count)

/-- The dependency of a resource that an entry is about. -/
def TableEdit.dependencyOf (i : ℕ) : TableEdit → Option ℕ
  | .dependency i' d => if i' = i ∧ i' ≠ d then some d else none
  | .notify .. => none

/-- The resource that an entry says a resource notifies. -/
def TableEdit.targetOf (s : ℕ) : TableEdit → Option ℕ
  | .notify s' i => if s' = s ∧ s' ≠ i then some i else none
  | .dependency .. => none

theorem deps_foldl_apply (edits : List TableEdit) (t : RelationTables) (i : ℕ) :
    (edits.foldl RelationTables.apply t).deps i =
      (edits.filterMap (TableEdit.dependencyOf i)).foldl (tableAdd 64) (t.deps i) := by
  induction edits generalizing t with
  | nil => rfl
  | cons e edits ih =>
    rw [List.foldl_cons, ih, List.filterMap_cons]
    cases e with
    | notify s j =>
      simp only [TableEdit.dependencyOf, RelationTables.apply]
      split_ifs <;> rfl
    | dependency i' d =>
      simp only [TableEdit.dependencyOf, RelationTables.apply]
      by_cases hself : i' = d
      · simp [hself]
      · by_cases hi : i' = i
        · subst hi
          simp [hself]
        · simp [hself, hi, Function.update_of_ne (Ne.symm hi)]

theorem targets_foldl_apply (edits : List TableEdit) (t : RelationTables) (s : ℕ) :
    (edits.foldl RelationTables.apply t).targets s =
      (edits.filterMap (TableEdit.targetOf s)).foldl (tableAdd 64) (t.targets s) := by
  induction edits generalizing t with
  | nil => rfl
  | cons e edits ih =>
    rw [List.foldl_cons, ih, List.filterMap_cons]
    cases e with
    | dependency i d =>
      simp only [TableEdit.targetOf, RelationTables.apply]
      split_ifs <;> rfl
    | notify s' j =>
      simp only [TableEdit.targetOf, RelationTables.apply]
      by_cases hself : s' = j
      · simp [hself]
      · by_cases hs : s' = s
        · subst hs
          simp [hself]
        · simp [hself, hs, Function.update_of_ne (Ne.symm hs)]

variable {edits : List TableEdit} {i d s : ℕ}

theorem deps_relationTables (edits : List TableEdit) (i : ℕ) :
    (relationTables edits).deps i = tableOf 64 (edits.filterMap (TableEdit.dependencyOf i)) :=
  deps_foldl_apply edits _ i

theorem targets_relationTables (edits : List TableEdit) (s : ℕ) :
    (relationTables edits).targets s = tableOf 64 (edits.filterMap (TableEdit.targetOf s)) :=
  targets_foldl_apply edits _ s

theorem mem_filterMap_dependencyOf :
    d ∈ edits.filterMap (TableEdit.dependencyOf i) ↔ .dependency i d ∈ edits ∧ i ≠ d := by
  rw [List.mem_filterMap]
  constructor
  · rintro ⟨e, he, h⟩
    cases e with
    | notify => cases h
    | dependency i' d' =>
      simp only [TableEdit.dependencyOf, Option.ite_none_right_eq_some, Option.some.injEq] at h
      obtain ⟨⟨rfl, hne⟩, rfl⟩ := h
      exact ⟨he, hne⟩
  · rintro ⟨he, hne⟩
    exact ⟨_, he, by simp [TableEdit.dependencyOf, hne]⟩

theorem mem_filterMap_targetOf :
    d ∈ edits.filterMap (TableEdit.targetOf s) ↔ .notify s d ∈ edits ∧ s ≠ d := by
  rw [List.mem_filterMap]
  constructor
  · rintro ⟨e, he, h⟩
    cases e with
    | dependency => cases h
    | notify s' d' =>
      simp only [TableEdit.targetOf, Option.ite_none_right_eq_some, Option.some.injEq] at h
      obtain ⟨⟨rfl, hne⟩, rfl⟩ := h
      exact ⟨he, hne⟩
  · rintro ⟨he, hne⟩
    exact ⟨_, he, by simp [TableEdit.targetOf, hne]⟩

theorem nodup_deps (edits : List TableEdit) (i : ℕ) : ((relationTables edits).deps i).Nodup := by
  rw [deps_relationTables]
  exact nodup_tableOf

/-- What a resource depends on by its table was entered. -/
theorem mem_deps (h : d ∈ (relationTables edits).deps i) : .dependency i d ∈ edits ∧ i ≠ d := by
  rw [deps_relationTables] at h
  exact mem_filterMap_dependencyOf.1 (mem_of_mem_tableOf h)

/-- What a resource notifies by its table was entered. -/
theorem mem_targets (h : d ∈ (relationTables edits).targets s) : .notify s d ∈ edits ∧ s ≠ d := by
  rw [targets_relationTables] at h
  exact mem_filterMap_targetOf.1 (mem_of_mem_tableOf h)

/-- All that is entered fits into the tables. -/
structure FitsTables (edits : List TableEdit) : Prop where
  deps : ∀ i, ∃ ds : List ℕ, ds.length ≤ 64 ∧ ∀ d, .dependency i d ∈ edits → i ≠ d → d ∈ ds
  targets : ∀ s, ∃ is : List ℕ, is.length ≤ 64 ∧ ∀ i, .notify s i ∈ edits → s ≠ i → i ∈ is

theorem mem_deps_iff (h : FitsTables edits) :
    d ∈ (relationTables edits).deps i ↔ .dependency i d ∈ edits ∧ i ≠ d := by
  obtain ⟨ds, hlength, hds⟩ := h.deps i
  rw [deps_relationTables, mem_tableOf_iff hlength, mem_filterMap_dependencyOf]
  intro d hd
  obtain ⟨hd, hne⟩ := mem_filterMap_dependencyOf.1 hd
  exact hds d hd hne

theorem mem_targets_iff (h : FitsTables edits) :
    d ∈ (relationTables edits).targets s ↔ .notify s d ∈ edits ∧ s ≠ d := by
  obtain ⟨is, hlength, his⟩ := h.targets s
  rw [targets_relationTables, mem_tableOf_iff hlength, mem_filterMap_targetOf]
  intro d hd
  obtain ⟨hd, hne⟩ := mem_filterMap_targetOf.1 hd
  exact his d hd hne

/-! ### The order -/

section Order

variable {entries : List AgentEntry} {catalog : Json}

theorem findResourceIndex_lt {type title : Bytes}
    (h : findResourceIndex entries type title = some i) :
    i < entries.length :=
  (List.findIdx?_eq_some_iff_getElem.1 h).1

theorem relatedIndices_lt {params : Json} {name : String}
    (h : i ∈ relatedIndices entries params name) : i < entries.length := by
  obtain ⟨ref, -, h⟩ := List.mem_filterMap.1 h
  obtain ⟨p, -, h⟩ := Option.bind_eq_some_iff.1 h
  exact findResourceIndex_lt h

/-- The indices of an entry. -/
def TableEdit.indices : TableEdit → ℕ × ℕ
  | .dependency i d => (i, d)
  | .notify s i => (s, i)

theorem extractDependencies_lt {index : ℕ} {element : Json} (hindex : index < entries.length)
    {e : TableEdit} (he : e ∈ extractDependencies entries index element) :
    e.indices.1 < entries.length ∧ e.indices.2 < entries.length := by
  rw [extractDependencies] at he
  split at he
  · simp only [List.mem_append, List.mem_map, List.mem_flatMap, List.mem_cons, List.not_mem_nil,
      or_false] at he
    rcases he with ((⟨d, hd, rfl⟩ | ⟨i, hi, rfl⟩) | ⟨i, hi, rfl | rfl⟩) | ⟨d, hd, rfl | rfl⟩
    · exact ⟨hindex, relatedIndices_lt hd⟩
    · exact ⟨relatedIndices_lt hi, hindex⟩
    · exact ⟨relatedIndices_lt hi, hindex⟩
    · exact ⟨hindex, relatedIndices_lt hi⟩
    · exact ⟨hindex, relatedIndices_lt hd⟩
    · exact ⟨relatedIndices_lt hd, hindex⟩
  · cases he

theorem edgeEnd_lt {edge : Json} {name : String} (h : edgeEnd entries edge name = some i) :
    i < entries.length := by
  rw [edgeEnd] at h
  split at h
  · cases h
  · split at h
    · exact findResourceIndex_lt h
    · cases h

theorem extractEdges_lt {e : TableEdit} (he : e ∈ extractEdges entries catalog) :
    e.indices.1 < entries.length ∧ e.indices.2 < entries.length := by
  rw [extractEdges] at he
  split at he
  · obtain ⟨edge, -, he⟩ := List.mem_flatMap.1 he
    split at he
    · next source target hsource htarget =>
      rcases List.mem_cons.1 he with rfl | he
      · exact ⟨edgeEnd_lt htarget, edgeEnd_lt hsource⟩
      · split_ifs at he
        · obtain rfl := List.mem_singleton.1 he
          exact ⟨edgeEnd_lt hsource, edgeEnd_lt htarget⟩
        · cases he
    · cases he
  · cases he

theorem addFileAutorequires_lt {e : TableEdit} (he : e ∈ addFileAutorequires entries) :
    e.indices.1 < entries.length ∧ e.indices.2 < entries.length := by
  obtain ⟨⟨entry, i⟩, hmem, he⟩ := List.mem_flatMap.1 he
  split at he
  · next parent hparent =>
    obtain rfl := List.mem_singleton.1 he
    obtain ⟨r, -, hfound⟩ := Option.bind_eq_some_iff.1 hparent
    rw [autorequired] at hfound
    split_ifs at hfound
    exact ⟨(List.mem_zipIdx' hmem).1, findResourceIndex_lt hfound⟩
  · cases he

/-- Entries are about resources of the catalog. -/
theorem catalogEdits_lt {e : TableEdit} (he : e ∈ catalogEdits entries catalog) :
    e.indices.1 < entries.length ∧ e.indices.2 < entries.length := by
  rw [catalogEdits, List.mem_append, List.mem_append] at he
  rcases he with (he | he) | he
  · obtain ⟨⟨entry, i⟩, hmem, he⟩ := List.mem_flatMap.1 he
    exact extractDependencies_lt (List.mem_zipIdx' hmem).1 he
  · exact extractEdges_lt he
  · exact addFileAutorequires_lt he

/-- What a resource depends on, by the tables. -/
def DependsOn (t : RelationTables) (i d : ℕ) : Prop := d ∈ t.deps i

/-- An order that is found is one of all resources, and respects the tables. -/
theorem topologicalSort_eq_some {order : List ℕ} {count : ℕ}
    (h : topologicalSort (relationTables edits) count = some order) :
    order.Perm (List.range count) ∧ Respects (DependsOn (relationTables edits)) order :=
  topologicalOrder_eq_some List.nodup_range (nodup_deps edits) h

/-- An order is found exactly if the tables have no cycle. -/
theorem topologicalSort_isSome_iff :
    (topologicalSort (relationTables (catalogEdits entries catalog)) entries.length).isSome = true ↔
      Acyclic (DependsOn (relationTables (catalogEdits entries catalog))) := by
  refine topologicalOrder_isSome_iff List.nodup_range (nodup_deps _) fun i d hd ↦ ?_
  rw [List.mem_range, List.mem_range]
  exact catalogEdits_lt (mem_deps hd).1

end Order

end PuppetC
