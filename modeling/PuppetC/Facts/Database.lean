import PuppetC.Facts.Load
import PuppetC.Json.Reader
import PuppetC.Node.Selection
import PuppetC.Support.LastIndex

/-!
# The facts database and its index

The nodes of the facts database stand in an array, to which each loader adds at the end, and an
index holds for each certname the position of its node. A certname that is loaded again gets a
second node, which the index holds from then on; the first one stays in the array, and a compile of
all nodes, which goes through the array, comes to the certname twice.

## Main definitions

* `FactsDatabase`, `FactsDatabase.addNode`: `puppet_facts_db_t`, `puppet_facts_db_add_node`.
* `FactsDatabase.loadFile`, `FactsDatabase.loadJson`, `FactsDatabase.loadFromFacter`: the loaders.
* `FactsLoad`, `FactsLoad.added`: a call of a loader, and the nodes that it is given.
* `FactsDatabase.iterateNodes`: the compile of all nodes.
* `FactsDatabase.IsExact`: the index and the array hold each certname once, with its last facts.

## Main results

* `find_toFactsDb`: the index finds the last of the nodes with a certname.
* `facts_database_exact_iff`: the database is exact exactly if no certname is loaded twice.
-/

namespace PuppetC

/-- `puppet_node_facts_t`. -/
structure LoadedNode extends NodeFacts where
  environment : Option String

/-- `puppet_facts_db_t`. -/
structure FactsDatabase where
  nodes : List LoadedNode
  nodeIndex : Hash 16 ℕ
  currentNode : Option String

namespace FactsDatabase

/-- `puppet_facts_db_create`. -/
def create : FactsDatabase := ⟨[], .empty, none⟩

/-- `puppet_facts_db_add_node`. -/
def addNode (db : FactsDatabase) (certname : String) (environment : Option String) :
    FactsDatabase :=
  { db with
    nodes := db.nodes ++ [⟨⟨certname, .empty⟩, environment⟩]
    nodeIndex := db.nodeIndex.set certname db.nodes.length }

/-- The facts of the last node are processed: `&facts_db->nodes[facts_db->node_count - 1]`. -/
def processLast (db : FactsDatabase) (process : Hash 16 Value → Hash 16 Value) : FactsDatabase :=
  { db with
    nodes := db.nodes.modify (db.nodes.length - 1) fun n ↦ { n with facts := process n.facts } }

/-- `puppet_facts_db_set_current_node`. -/
def setCurrentNode (db : FactsDatabase) (certname : String) : FactsDatabase :=
  match db.nodeIndex.get certname with
  | none => db
  | some i => if db.nodes.length ≤ i then db else { db with currentNode := some certname }

/-! ### The loaders

A loader that returns `-1` has left the database as it was. -/

/-- The text of a JSON string, else another text. -/
def textOr (v : Option Json) (other : String) : String :=
  match v with
  | some (.string s) => String.ofList s
  | _ => other

/-- The name of the node that facts from `facter` are of. -/
def facterNodeName (root : Json) : String :=
  textOr ((root.get? "networking".toList).bind (·.get? "fqdn".toList))
    (textOr (root.get? "hostname".toList) "localhost")

/-- `puppet_facts_load_facter_format`. -/
def loadFacterFormat (db : FactsDatabase) (root : Json) : FactsDatabase :=
  let name := facterNodeName root
  ((db.addNode name none).processLast fun facts ↦ factsProcessObject facts "" root).setCurrentNode
    name

/-- The node of an element of an answer of PuppetDB: its certname, its environment and its
facts. -/
def puppetdbNode (node : Json) : Option (String × Option String × Json) :=
  match node.get? "certname".toList, node.get? "facts".toList with
  | some (.string certname), some facts =>
    let environment :=
      match node.get? "environment".toList with
      | some (.string e) => some (String.ofList e)
      | _ => none
    some (String.ofList certname, environment, facts)
  | _, _ => none

/-- One round of `puppet_facts_load_puppetdb_format`. -/
def loadPuppetdbNode (db : FactsDatabase) (node : Json) : FactsDatabase :=
  match puppetdbNode node with
  | none => db
  | some (certname, environment, facts) =>
    (db.addNode certname environment).processLast fun old ↦ factsProcessObject old "" facts

/-- `puppet_facts_load_puppetdb_format`. -/
def loadPuppetdbFormat (db : FactsDatabase) (elements : List Json) : FactsDatabase :=
  elements.foldl loadPuppetdbNode db

/-- One round over the nodes of a YAML file. -/
def loadYamlNode (db : FactsDatabase) (entry : String × Value) : FactsDatabase :=
  match entry.2 with
  | .hash entries =>
    (db.addNode entry.1 none).processLast fun facts ↦ factsProcessValue facts "" (.hash entries)
  | _ => db

/-- The name of the node that a YAML file of one node is of. -/
def yamlNodeName (entries : List (String × Value)) : String :=
  match hashGet entries "fqdn" with
  | some (.string s) => s
  | _ =>
    match hashGet entries "hostname" with
    | some (.string s) => s
    | _ => "localhost"

/-- `puppet_facts_load_yaml`, of what the file holds. -/
def loadYaml (db : FactsDatabase) : Option Value → Option FactsDatabase
  | some (.hash entries) =>
    match hashGet entries "facts" with
    | some (.hash nodes) => some (nodes.foldl loadYamlNode db)
    | _ =>
      let name := yamlNodeName entries
      some (((db.addNode name none).processLast fun facts ↦
        factsProcessValue facts "" (.hash entries)).setCurrentNode name)
  | _ => none

/-- `is_yaml_file`. -/
def isYamlFile (filepath : String) : Bool :=
  ".yaml".toList.isSuffixOf filepath.toList || ".yml".toList.isSuffixOf filepath.toList

/-- What the readers of YAML and of JSON files make of a path. -/
structure FactsFiles where
  yaml : String → Option Value
  json : String → Option Json

/-- `puppet_facts_db_load_file`. -/
def loadFile (files : FactsFiles) (db : FactsDatabase) (filepath : String) :
    Option FactsDatabase :=
  if isYamlFile filepath then db.loadYaml (files.yaml filepath)
  else
    match files.json filepath with
    | some (.array elements) => some (db.loadPuppetdbFormat elements)
    | some (.object members) => some (db.loadFacterFormat (.object members))
    | _ => none

/-- `puppet_facts_db_load_json`. -/
def loadJson (db : FactsDatabase) (certname : String) (factsJson : Json) : Option FactsDatabase :=
  match factsJson with
  | .object members =>
    some (((db.addNode certname none).processLast fun facts ↦
      factsProcessObject facts "" (.object members)).setCurrentNode certname)
  | _ => none

/-- `puppet_facts_db_load_from_facter`, of what `facter` collects. -/
def loadFromFacter (db : FactsDatabase) (certname : String) (collected : Option Json) :
    Option FactsDatabase :=
  collected.map fun json ↦
    ((db.addNode certname none).processLast fun facts ↦
      factsProcessObject facts "" json).setCurrentNode certname

end FactsDatabase

/-- A call of a loader. -/
inductive FactsLoad where
  | file (filepath : String)
  | json (certname : String) (facts : Json)
  | facter (certname : String) (collected : Option Json)

open FactsDatabase

/-- A call of a loader; `none` where it returns `-1`. -/
def FactsLoad.run (files : FactsFiles) (db : FactsDatabase) : FactsLoad → Option FactsDatabase
  | .file filepath => db.loadFile files filepath
  | .json certname facts => db.loadJson certname facts
  | .facter certname collected => db.loadFromFacter certname collected

/-- Loaders are called one after the other. -/
def FactsDatabase.loadAll (files : FactsFiles) (db : FactsDatabase) (loads : List FactsLoad) :
    FactsDatabase :=
  loads.foldl (fun db load ↦ (load.run files db).getD db) db

/-! ### What the loads are given -/

/-- The node with facts of one object. -/
def jsonNode (certname : String) (environment : Option String) (facts : Json) : LoadedNode :=
  ⟨⟨certname, factsProcessObject .empty "" facts⟩, environment⟩

/-- The node with facts of one hash. -/
def yamlNode (certname : String) (facts : Value) : LoadedNode :=
  ⟨⟨certname, factsProcessValue .empty "" facts⟩, none⟩

/-- The nodes of an answer of PuppetDB. -/
def puppetdbNodes (elements : List Json) : List LoadedNode :=
  (elements.filterMap puppetdbNode).map fun n ↦ jsonNode n.1 n.2.1 n.2.2

/-- The node of an entry of a YAML file of many nodes. -/
def yamlEntryNode (entry : String × Value) : Option LoadedNode :=
  match entry.2 with
  | .hash entries => some (yamlNode entry.1 (.hash entries))
  | _ => none

/-- The nodes of a YAML file. -/
def yamlFileNodes : Option Value → List LoadedNode
  | some (.hash entries) =>
    match hashGet entries "facts" with
    | some (.hash nodes) => nodes.filterMap yamlEntryNode
    | _ => [yamlNode (yamlNodeName entries) (.hash entries)]
  | _ => []

/-- The nodes of a JSON file. -/
def jsonFileNodes : Option Json → List LoadedNode
  | some (.array elements) => puppetdbNodes elements
  | some (.object members) =>
    [jsonNode (facterNodeName (.object members)) none (.object members)]
  | _ => []

/-- The nodes of a file. -/
def fileNodes (files : FactsFiles) (filepath : String) : List LoadedNode :=
  if isYamlFile filepath then yamlFileNodes (files.yaml filepath)
  else jsonFileNodes (files.json filepath)

/-- The nodes that a call of a loader is given, with their facts. -/
def FactsLoad.added (files : FactsFiles) : FactsLoad → List LoadedNode
  | .file filepath => fileNodes files filepath
  | .json certname (.object members) => [jsonNode certname none (.object members)]
  | .json _ _ => []
  | .facter certname collected => (collected.map (jsonNode certname none)).toList

/-- The certnames that a call of a loader is given. -/
def FactsLoad.certnames (files : FactsFiles) (load : FactsLoad) : List String :=
  (load.added files).map fun n ↦ n.certname

/-- Some nodes have been added to a database at the end, and to its index. -/
structure FactsDatabase.Extends (db : FactsDatabase) (added : List LoadedNode)
    (db' : FactsDatabase) : Prop where
  nodes : db'.nodes = db.nodes ++ added
  index : IndexesLast db.nodeIndex (db.nodes.map fun n ↦ n.certname) →
    IndexesLast db'.nodeIndex (db'.nodes.map fun n ↦ n.certname)

namespace FactsDatabase

namespace Extends

theorem refl (db : FactsDatabase) : db.Extends [] db := ⟨by simp, id⟩

theorem trans {db db₁ db₂ : FactsDatabase} {a b : List LoadedNode} (h₁ : db.Extends a db₁)
    (h₂ : db₁.Extends b db₂) : db.Extends (a ++ b) db₂ :=
  ⟨by rw [h₂.nodes, h₁.nodes, List.append_assoc], fun h ↦ h₂.index (h₁.index h)⟩

theorem setCurrentNode {db db₁ : FactsDatabase} {a : List LoadedNode} (h : db.Extends a db₁)
    (certname : String) : db.Extends a (db₁.setCurrentNode certname) := by
  unfold FactsDatabase.setCurrentNode
  cases db₁.nodeIndex.get certname with
  | none => exact h
  | some i =>
    dsimp only
    split_ifs
    · exact h
    · exact ⟨h.nodes, h.index⟩

/-- A loop that adds nodes for each of some elements. -/
theorem foldl {α : Type} {f : FactsDatabase → α → FactsDatabase} {added : α → List LoadedNode}
    (hf : ∀ (db : FactsDatabase) (x : α), db.Extends (added x) (f db x)) (db : FactsDatabase)
    (xs : List α) :
    db.Extends (xs.flatMap added) (xs.foldl f db) := by
  induction xs generalizing db with
  | nil => exact refl db
  | cons x xs ih => exact (hf db x).trans (ih (f db x))

end Extends

theorem modify_append_singleton {α : Type} (f : α → α) (xs : List α) (x : α) :
    (xs ++ [x]).modify xs.length f = xs ++ [f x] := by
  induction xs with
  | nil => rfl
  | cons y ys ih => simpa using ih

/-- A node that is added and processed stands at the end, with the facts processed. -/
theorem extends_addNode (db : FactsDatabase) (certname : String) (environment : Option String)
    (process : Hash 16 Value → Hash 16 Value) :
    db.Extends [⟨⟨certname, process .empty⟩, environment⟩]
      ((db.addNode certname environment).processLast process) := by
  have hnodes : ((db.addNode certname environment).processLast process).nodes =
      db.nodes ++ [⟨⟨certname, process .empty⟩, environment⟩] := by
    unfold processLast addNode
    dsimp only
    rw [List.length_append, List.length_singleton, Nat.add_sub_cancel, modify_append_singleton]
  refine ⟨hnodes, fun h ↦ ?_⟩
  have happend := h.append certname
  rw [List.length_map] at happend
  rw [hnodes, List.map_append]
  exact happend

theorem extends_loadPuppetdbNode (db : FactsDatabase) (node : Json) :
    db.Extends (((puppetdbNode node).map fun n ↦ jsonNode n.1 n.2.1 n.2.2).toList)
      (db.loadPuppetdbNode node) := by
  unfold loadPuppetdbNode
  cases puppetdbNode node with
  | none => exact .refl db
  | some n => exact extends_addNode db n.1 n.2.1 fun old ↦ factsProcessObject old "" n.2.2

theorem flatMap_toList {α β : Type} (f : α → Option β) (xs : List α) :
    xs.flatMap (fun x ↦ (f x).toList) = xs.filterMap f := by
  induction xs with
  | nil => rfl
  | cons x xs ih => cases h : f x <;> simp [h, ih]

theorem extends_loadPuppetdbFormat (db : FactsDatabase) (elements : List Json) :
    db.Extends (puppetdbNodes elements) (db.loadPuppetdbFormat elements) := by
  have h := Extends.foldl extends_loadPuppetdbNode db elements
  rwa [flatMap_toList, ← List.map_filterMap] at h

theorem extends_loadFacterFormat (db : FactsDatabase) (root : Json) :
    db.Extends [jsonNode (facterNodeName root) none root] (db.loadFacterFormat root) :=
  (extends_addNode db (facterNodeName root) none fun facts ↦
    factsProcessObject facts "" root).setCurrentNode _

theorem extends_loadYamlNode (db : FactsDatabase) (entry : String × Value) :
    db.Extends (yamlEntryNode entry).toList (db.loadYamlNode entry) := by
  obtain ⟨name, v⟩ := entry
  cases v with
  | hash entries =>
    exact extends_addNode db name none fun facts ↦ factsProcessValue facts "" (.hash entries)
  | undef | bool | number | string | regexp | array | deferred => exact .refl db

theorem extends_loadYaml (db : FactsDatabase) (root : Option Value) :
    db.Extends (yamlFileNodes root) ((db.loadYaml root).getD db) := by
  match root with
  | none => exact .refl db
  | some .undef | some (.bool _) | some (.number _) | some (.string _) | some (.regexp _)
  | some (.array _) | some (.deferred _ _) => exact .refl db
  | some (.hash entries) =>
    have hone (name : String) := (extends_addNode db name none fun facts ↦
      factsProcessValue facts "" (.hash entries)).setCurrentNode name
    simp only [loadYaml, yamlFileNodes]
    cases hashGet entries "facts" with
    | none => exact hone _
    | some v =>
      cases v with
      | hash nodes =>
        have hmany := Extends.foldl extends_loadYamlNode db nodes
        rwa [flatMap_toList] at hmany
      | undef | bool | number | string | regexp | array | deferred => exact hone _

theorem extends_loadFile (files : FactsFiles) (db : FactsDatabase) (filepath : String) :
    db.Extends (fileNodes files filepath) ((db.loadFile files filepath).getD db) := by
  unfold loadFile fileNodes
  split_ifs
  · exact extends_loadYaml db _
  · match files.json filepath with
    | some (.array elements) => exact extends_loadPuppetdbFormat db elements
    | some (.object members) => exact extends_loadFacterFormat db _
    | none | some .null | some (.bool _) | some (.number _) | some (.string _) => exact .refl db

/-- A call of a loader adds the nodes that it is given; one that fails is given none. -/
theorem extends_run (files : FactsFiles) (db : FactsDatabase) (load : FactsLoad) :
    db.Extends (load.added files) ((load.run files db).getD db) := by
  have hone (name : String) (json : Json) :=
    (extends_addNode db name none fun facts ↦ factsProcessObject facts "" json).setCurrentNode name
  cases load with
  | json certname facts =>
    cases facts with
    | object members => exact hone certname (.object members)
    | null | bool | number | string | array => exact .refl db
  | facter certname collected =>
    cases collected with
    | none => exact .refl db
    | some json => exact hone certname json
  | file filepath => exact extends_loadFile files db filepath

/-- The run of any sequence of loads adds the nodes that these are given. -/
theorem extends_loadAll (files : FactsFiles) (db : FactsDatabase) (loads : List FactsLoad) :
    db.Extends (loads.flatMap (FactsLoad.added files)) (db.loadAll files loads) :=
  Extends.foldl (extends_run files) db loads

theorem nodes_loadAll (files : FactsFiles) (loads : List FactsLoad) :
    (create.loadAll files loads).nodes = loads.flatMap (FactsLoad.added files) :=
  (extends_loadAll files create loads).nodes

/-- In every run the index holds the last position of each certname. -/
theorem indexesLast_loadAll (files : FactsFiles) (loads : List FactsLoad) :
    IndexesLast (create.loadAll files loads).nodeIndex
      ((create.loadAll files loads).nodes.map fun n ↦ n.certname) :=
  (extends_loadAll files create loads).index .empty

/-! ### What the index finds -/

/-- The database as the compile of a node reads it. -/
def toFactsDb (db : FactsDatabase) : FactsDb := ⟨db.nodes.map LoadedNode.toNodeFacts⟩

theorem getLast?_filter_eq {α : Type} {p : α → Bool} {xs : List α} {i : ℕ} {x : α}
    (hx : xs[i]? = some x) (hp : p x = true)
    (hlast : ∀ j y, i < j → xs[j]? = some y → p y = false) :
    (xs.filter p).getLast? = some x := by
  obtain ⟨hlt, hget⟩ := List.getElem?_eq_some_iff.1 hx
  have hsplit : xs = xs.take i ++ x :: xs.drop (i + 1) := by
    rw [← hget, List.getElem_cons_drop, List.take_append_drop]
  have hnil : (xs.drop (i + 1)).filter p = [] := by
    refine List.filter_eq_nil_iff.2 fun y hy ↦ ?_
    obtain ⟨j, hj⟩ := List.getElem?_of_mem hy
    rw [List.getElem?_drop] at hj
    simp [hlast _ y (by omega) hj]
  rw [hsplit, List.filter_append, List.filter_cons_of_pos hp, hnil]
  simp

/-- The index finds the last of the nodes with a certname, in every run. -/
theorem find_toFactsDb {db : FactsDatabase}
    (h : IndexesLast db.nodeIndex (db.nodes.map fun n ↦ n.certname)) (certname : String) :
    db.toFactsDb.find certname =
      (db.nodeIndex.get certname).bind fun i ↦ db.nodes[i]?.map LoadedNode.toNodeFacts := by
  unfold FactsDb.find toFactsDb
  rw [List.filter_map, List.getLast?_map]
  cases hindex : db.nodeIndex.get certname with
  | none =>
    have hnil : db.nodes.filter ((fun n ↦ decide (n.certname = certname)) ∘
        LoadedNode.toNodeFacts) = [] := by
      refine List.filter_eq_nil_iff.2 fun n hn hname ↦ ?_
      obtain ⟨i, hi⟩ := h.exists_get (k := certname)
        (List.mem_map.2 ⟨n, hn, by simpa using hname⟩)
      rw [hindex] at hi
      cases hi
    rw [hnil]
    rfl
  | some i =>
    obtain ⟨hi, hlast⟩ := (h certname i).1 hindex
    rw [List.getElem?_map, Option.map_eq_some_iff] at hi
    obtain ⟨n, hn, hname⟩ := hi
    have hfilter := getLast?_filter_eq
      (p := (fun n ↦ decide (n.certname = certname)) ∘ LoadedNode.toNodeFacts) hn
      (by simpa using hname) fun j m hj hm ↦ by
        have := hlast j hj
        rw [List.getElem?_map, hm] at this
        simpa using this
    rw [hfilter, Option.bind_some, hn]

/-! ### The compile of all nodes -/

/-- The loop of `puppet_exec_program` and of `puppet_exec_nodes_parallel` over the nodes: the
certnames that are compiled, each with its definition. -/
def iterateNodes {β : Type} (regexec : String → String → Bool)
    (nodeDefinitions : List (NodeDef β)) (db : FactsDatabase) : List (String × NodeDef β) :=
  db.nodes.filterMap fun n ↦
    (findMatchingNode regexec nodeDefinitions n.certname).map fun d ↦ (n.certname, d)

theorem map_fst_iterateNodes {β : Type} (regexec : String → String → Bool)
    (nodeDefinitions : List (NodeDef β)) (db : FactsDatabase) :
    (db.iterateNodes regexec nodeDefinitions).map Prod.fst =
      (db.nodes.map fun n ↦ n.certname).filter fun c ↦
        (findMatchingNode regexec nodeDefinitions c).isSome := by
  unfold iterateNodes
  induction db.nodes with
  | nil => rfl
  | cons n ns ih => cases h : findMatchingNode regexec nodeDefinitions n.certname <;> simp [h, ih]

/-- A database holds what it was given and each certname once: the index leads to the one node with
the certname, which has the facts given last for it, and the compile of all nodes comes to each
certname once for which there is a definition. -/
structure IsExact {β : Type} (regexec : String → String → Bool)
    (nodeDefinitions : List (NodeDef β)) (given : List LoadedNode) (db : FactsDatabase) :
    Prop where
  index : ∀ c n, (given.filter fun m ↦ m.certname = c).getLast? = some n →
    ∃ i, db.nodeIndex.get c = some i ∧ db.nodes[i]? = some n ∧
      ∀ j m, db.nodes[j]? = some m → m.certname = c → j = i
  absent : ∀ c, (∀ n ∈ given, n.certname ≠ c) → db.nodeIndex.get c = none
  distinct : (db.nodes.map fun n ↦ n.certname).Nodup
  once : ∀ n ∈ given, (findMatchingNode regexec nodeDefinitions n.certname).isSome →
    ((db.iterateNodes regexec nodeDefinitions).map Prod.fst).count n.certname = 1

/-- With distinct certnames, the database is exact. -/
theorem IsExact.of_nodup {β : Type} {regexec : String → String → Bool}
    {nodeDefinitions : List (NodeDef β)} {db : FactsDatabase}
    (h : IndexesLast db.nodeIndex (db.nodes.map fun n ↦ n.certname))
    (hnodup : (db.nodes.map fun n ↦ n.certname).Nodup) :
    db.IsExact regexec nodeDefinitions db.nodes where
  index c n hlast := by
    have hmem := List.mem_filter.1 (List.mem_of_getLast? hlast)
    obtain ⟨i, hi⟩ := List.getElem?_of_mem hmem.1
    have hname : n.certname = c := by simpa using hmem.2
    have hunique (j : ℕ) (m : LoadedNode) (hm : db.nodes[j]? = some m) (hc : m.certname = c) :
        ∀ k, db.nodeIndex.get c = some k → j = k := fun k hk ↦
      h.forall_unique_iff.2 hnodup c k hk j (by rw [List.getElem?_map, hm, Option.map_some, hc])
    obtain ⟨k, hk⟩ := h.exists_get (k := c) (List.mem_map.2 ⟨n, hmem.1, hname⟩)
    obtain rfl := hunique i n hi hname k hk
    exact ⟨i, hk, hi, fun j m hm hc ↦ hunique j m hm hc i hk⟩
  absent c hc := h.get_eq_none fun hmem ↦ by
    obtain ⟨n, hn, hname⟩ := List.mem_map.1 hmem
    exact hc n hn hname
  distinct := hnodup
  once n hn hmatch := by
    rw [map_fst_iterateNodes]
    exact List.count_eq_one_of_mem (hnodup.filter _)
      (List.mem_filter.2 ⟨List.mem_map_of_mem hn, hmatch⟩)

end FactsDatabase

/-- After any sequence of loads the facts database is exact exactly if no certname is given twice to
the loads. -/
theorem facts_database_exact_iff {β : Type} (files : FactsFiles) (loads : List FactsLoad)
    (regexec : String → String → Bool) (nodeDefinitions : List (NodeDef β)) :
    (create.loadAll files loads).IsExact regexec nodeDefinitions
        (loads.flatMap (FactsLoad.added files)) ↔
      (loads.flatMap (FactsLoad.certnames files)).Nodup := by
  have hnames : (create.loadAll files loads).nodes.map (fun n ↦ n.certname) =
      loads.flatMap (FactsLoad.certnames files) := by
    rw [nodes_loadAll, List.map_flatMap]
    rfl
  constructor
  · intro h
    exact hnames ▸ h.distinct
  · intro h
    rw [← nodes_loadAll]
    exact .of_nodup (indexesLast_loadAll files loads) (hnames ▸ h)

/-- A file of PuppetDB's form with a certname twice. -/
def twiceFiles : FactsFiles where
  yaml _ := none
  json _ :=
    let node : Json := .object [("certname".toList, .string ['n']), ("facts".toList, .object [])]
    some (.array [node, node])

/-- A file with a certname twice gives the database two nodes with this certname. -/
theorem not_isExact_twice :
    ¬ ∀ (files : FactsFiles) (loads : List FactsLoad),
      (create.loadAll files loads).IsExact (β := Unit) (fun _ _ ↦ false) []
        (loads.flatMap (FactsLoad.added files)) := by
  intro h
  have hnames : (create.loadAll twiceFiles [.file "facts.json"]).nodes.map
      (fun n ↦ n.certname) = ["n", "n"] := by decide +kernel
  have hdistinct := (h twiceFiles [.file "facts.json"]).distinct
  rw [hnames] at hdistinct
  exact absurd hdistinct (by decide)

end PuppetC
