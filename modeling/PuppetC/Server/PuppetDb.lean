import PuppetC.Json.Writer
import PuppetC.Support.KeyedTable

/-!
# PuppetDB

The SQLite database of the server, with the statements of `puppetdb.c` on its four tables. The
number of a node is its place in the table of nodes, from which no row is ever deleted. The
constraints of the schema are fields of the structure. Times are left out.

## Main definitions

* `PuppetDb`: the database, `PuppetDb.empty` as `puppetdb_open` creates it.
* `PuppetDb.getOrCreateNode`: `get_or_create_node`.
* `PuppetDb.storeFacts`, `PuppetDb.storeCatalog`, `PuppetDb.storeExported`,
  `PuppetDb.deactivateNode`: the functions that write.
* `PuppetDb.getCatalog`: `puppetdb_get_catalog`.

## Main results

* `PuppetDb.getCatalog_eq_some_iff`: what the stored catalog of a certname is.
* `PuppetDb.getCatalog_storeCatalog`: the stored catalog after a catalog has been stored.
-/

namespace PuppetC

/-- A row of `nodes`. -/
structure NodeRow where
  certname : Bytes
  deactivated : Bool
  deriving DecidableEq

/-- A row of `facts`. -/
structure FactsRow where
  nodeId : ℕ
  facts : Bytes
  deriving DecidableEq

/-- A row of `catalogs`. -/
structure CatalogRow where
  nodeId : ℕ
  catalog : Bytes
  deriving DecidableEq

/-- A row of `exported_resources`. -/
structure ExportedRow where
  nodeId : ℕ
  type : Bytes
  title : Bytes
  parameters : Bytes
  tags : Bytes
  deriving DecidableEq

/-- The columns that are unique in `exported_resources`. -/
def ExportedRow.key (r : ExportedRow) : Bytes × Bytes := (r.type, r.title)

/-- `puppetdb_t`: the tables, with their unique columns and foreign keys. -/
structure PuppetDb where
  nodes : List NodeRow
  facts : KeyedTable FactsRow.nodeId
  catalogs : KeyedTable CatalogRow.nodeId
  exported : KeyedTable ExportedRow.key
  certnames : (nodes.map NodeRow.certname).Nodup
  factsNodes : ∀ r ∈ facts.rows, r.nodeId < nodes.length
  catalogsNodes : ∀ r ∈ catalogs.rows, r.nodeId < nodes.length
  exportedNodes : ∀ r ∈ exported.rows, r.nodeId < nodes.length

namespace PuppetDb

/-- A database that was just created. -/
def empty : PuppetDb where
  nodes := []
  facts := .empty
  catalogs := .empty
  exported := .empty
  certnames := List.nodup_nil
  factsNodes := by simp
  catalogsNodes := by simp
  exportedNodes := by simp

variable (db : PuppetDb)

/-! ### Nodes -/

/-- `SELECT id FROM nodes WHERE certname = ?`. -/
def nodeId? (certname : Bytes) : Option ℕ :=
  db.nodes.findIdx? fun n ↦ n.certname = certname

variable {db} in
theorem nodeId?_eq_some_iff {certname : Bytes} {i : ℕ} :
    db.nodeId? certname = some i ↔ ∃ n, db.nodes[i]? = some n ∧ n.certname = certname := by
  rw [nodeId?, List.findIdx?_eq_some_iff_getElem]
  constructor
  · rintro ⟨hi, hn, -⟩
    exact ⟨db.nodes[i], List.getElem?_eq_getElem hi, by simpa using hn⟩
  · rintro ⟨n, hn, rfl⟩
    obtain ⟨hi, rfl⟩ := List.getElem?_eq_some_iff.1 hn
    refine ⟨hi, by simp, fun j hj hc ↦ ?_⟩
    have hlt : j < (db.nodes.map NodeRow.certname).length := by
      simpa using hj.trans hi
    have hlt' : i < (db.nodes.map NodeRow.certname).length := by
      simpa using hi
    have hname : (db.nodes.map NodeRow.certname)[j] = (db.nodes.map NodeRow.certname)[i] := by
      simpa using hc
    exact absurd ((List.Nodup.getElem_inj_iff db.certnames).1 hname) (by omega)

/-- The number that `get_or_create_node` answers; a new node comes after the others. -/
def nodeIdOf (certname : Bytes) : ℕ := (db.nodeId? certname).getD db.nodes.length

theorem certname_of_nodeIdOf {certname : Bytes} {n : NodeRow}
    (h : db.nodes[db.nodeIdOf certname]? = some n) : n.certname = certname := by
  rw [nodeIdOf] at h
  cases hid : db.nodeId? certname with
  | some i =>
    obtain ⟨n', hn', hname⟩ := nodeId?_eq_some_iff.1 hid
    rw [hid, Option.getD_some, hn'] at h
    exact Option.some.inj h ▸ hname
  | none =>
    rw [hid, Option.getD_none, List.getElem?_eq_none le_rfl] at h
    cases h

/-- The nodes after `get_or_create_node`. -/
def nodesWith (certname : Bytes) : List NodeRow :=
  match db.nodeId? certname with
  | some i => db.nodes.modify i fun n ↦ { n with deactivated := false }
  | none => db.nodes ++ [⟨certname, false⟩]

/-- The node of the certname is there and active; the others stay as they were. -/
theorem getElem?_nodesWith (certname : Bytes) (i : ℕ) :
    (db.nodesWith certname)[i]? =
      if i = db.nodeIdOf certname then some ⟨certname, false⟩ else db.nodes[i]? := by
  rw [nodesWith, nodeIdOf]
  cases hid : db.nodeId? certname with
  | some j =>
    obtain ⟨n, hn, rfl⟩ := nodeId?_eq_some_iff.1 hid
    simp only [List.getElem?_modify, Option.getD_some]
    by_cases hij : i = j
    · subst hij
      simp [hn]
    · simp [hij, Ne.symm hij]
  | none =>
    simp only [Option.getD_none]
    rcases lt_trichotomy i db.nodes.length with hlt | rfl | hgt
    · rw [List.getElem?_append_left hlt, if_neg hlt.ne]
    · simp
    · rw [if_neg hgt.ne', List.getElem?_eq_none (by simpa using Nat.succ_le_of_lt hgt),
        List.getElem?_eq_none hgt.le]

theorem length_le_nodesWith (certname : Bytes) :
    db.nodes.length ≤ (db.nodesWith certname).length := by
  rw [nodesWith]
  cases db.nodeId? certname <;> simp

theorem nodeIdOf_lt (certname : Bytes) :
    db.nodeIdOf certname < (db.nodesWith certname).length := by
  have hnode := db.getElem?_nodesWith certname (db.nodeIdOf certname)
  rw [if_pos rfl] at hnode
  exact (List.getElem?_eq_some_iff.1 hnode).1

theorem nodup_nodesWith (certname : Bytes) :
    ((db.nodesWith certname).map NodeRow.certname).Nodup := by
  rw [nodesWith]
  cases hid : db.nodeId? certname with
  | some i =>
    have hsame : (db.nodes.modify i fun n ↦ { n with deactivated := false }).map
        NodeRow.certname = db.nodes.map NodeRow.certname := by
      refine List.ext_getElem? fun j ↦ ?_
      simp only [List.getElem?_map, List.getElem?_modify]
      cases db.nodes[j]? with
      | none => rfl
      | some n => by_cases hij : i = j <;> simp [hij]
    rw [hsame]
    exact db.certnames
  | none =>
    rw [List.map_append, List.nodup_append]
    refine ⟨db.certnames, List.nodup_singleton _, ?_⟩
    intro c hc c' hc' heq
    obtain ⟨n, hn, rfl⟩ := List.mem_map.1 hc
    obtain ⟨i, hi⟩ := List.getElem?_of_mem hn
    obtain rfl : c' = certname := by simpa using hc'
    rw [nodeId?_eq_some_iff.2 ⟨n, hi, heq⟩] at hid
    cases hid

/-- `get_or_create_node`, which answers `nodeIdOf`. -/
def getOrCreateNode (certname : Bytes) : PuppetDb :=
  { db with
    nodes := db.nodesWith certname
    certnames := db.nodup_nodesWith certname
    factsNodes := fun r hr ↦ (db.factsNodes r hr).trans_le (db.length_le_nodesWith certname)
    catalogsNodes := fun r hr ↦ (db.catalogsNodes r hr).trans_le (db.length_le_nodesWith certname)
    exportedNodes := fun r hr ↦ (db.exportedNodes r hr).trans_le (db.length_le_nodesWith certname) }

/-! ### The functions that write -/

/-- The foreign key of a table holds after a row of an existing node has been put in. -/
theorem forall_replace {ρ κ : Type} [DecidableEq κ] {key : ρ → κ} {nodeId : ρ → ℕ} {count : ℕ}
    {t : KeyedTable key} {r : ρ} (ht : ∀ r ∈ t.rows, nodeId r < count) (hr : nodeId r < count) :
    ∀ r' ∈ (t.replace r).rows, nodeId r' < count := by
  intro r' hr'
  rcases KeyedTable.mem_replace.1 hr' with rfl | ⟨hr', -⟩
  · exact hr
  · exact ht r' hr'

/-- `puppetdb_store_facts`. -/
def storeFacts (certname facts : Bytes) : PuppetDb :=
  let db' := db.getOrCreateNode certname
  { db' with
    facts := db'.facts.replace ⟨db.nodeIdOf certname, facts⟩
    factsNodes := forall_replace db'.factsNodes (db.nodeIdOf_lt certname) }

/-- `puppetdb_store_catalog`. -/
def storeCatalog (certname catalog : Bytes) : PuppetDb :=
  let db' := db.getOrCreateNode certname
  { db' with
    catalogs := db'.catalogs.replace ⟨db.nodeIdOf certname, catalog⟩
    catalogsNodes := forall_replace db'.catalogsNodes (db.nodeIdOf_lt certname) }

/-- `puppetdb_store_exported`. -/
def storeExported (certname type title parameters tags : Bytes) : PuppetDb :=
  let db' := db.getOrCreateNode certname
  { db' with
    exported := db'.exported.replace ⟨db.nodeIdOf certname, type, title, parameters, tags⟩
    exportedNodes := forall_replace db'.exportedNodes (db.nodeIdOf_lt certname) }

/-! ### The stored catalog -/

/-- `puppetdb_get_catalog`. -/
def getCatalog (certname : Bytes) : Option Bytes :=
  (db.catalogs.rows.find? fun r ↦ db.nodes[r.nodeId]? = some ⟨certname, false⟩).map
    CatalogRow.catalog

/-- No node is deactivated. -/
def AllActive : Prop := ∀ n ∈ db.nodes, n.deactivated = false

variable {db} {certname certname' : Bytes}

theorem node_unique {i j : ℕ} {n n' : NodeRow} (hi : db.nodes[i]? = some n)
    (hj : db.nodes[j]? = some n') (h : n.certname = n'.certname) : i = j := by
  have hid : db.nodeId? n'.certname = some i := nodeId?_eq_some_iff.2 ⟨n, hi, h⟩
  rw [nodeId?_eq_some_iff.2 ⟨n', hj, rfl⟩] at hid
  exact (Option.some.inj hid).symm

/-- The stored catalog is that of the active node with the certname. -/
theorem getCatalog_eq_some_iff {catalog : Bytes} :
    db.getCatalog certname = some catalog ↔
      ∃ i, db.nodes[i]? = some ⟨certname, false⟩ ∧ ⟨i, catalog⟩ ∈ db.catalogs.rows := by
  rw [getCatalog, Option.map_eq_some_iff]
  constructor
  · rintro ⟨r, hr, rfl⟩
    exact ⟨r.nodeId, by simpa using List.find?_some hr, List.mem_of_find?_eq_some hr⟩
  · rintro ⟨i, hnode, hrow⟩
    have hfound : (db.catalogs.rows.find? fun r ↦
        db.nodes[r.nodeId]? = some ⟨certname, false⟩).isSome :=
      List.find?_isSome.2 ⟨_, hrow, by simpa using hnode⟩
    obtain ⟨r, hr⟩ := Option.isSome_iff_exists.1 hfound
    have hrnode : db.nodes[r.nodeId]? = some ⟨certname, false⟩ := by
      simpa using List.find?_some hr
    have hsame : r = ⟨i, catalog⟩ :=
      db.catalogs.eq_of_key_eq (List.mem_of_find?_eq_some hr) hrow (node_unique hrnode hnode rfl)
    exact ⟨r, hr, by rw [hsame]⟩

/-- The stored catalog after a catalog has been stored. -/
theorem getCatalog_storeCatalog (catalog : Bytes) :
    (db.storeCatalog certname catalog).getCatalog certname' =
      if certname' = certname then some catalog else db.getCatalog certname' := by
  have hnode (i : ℕ) : (db.storeCatalog certname catalog).nodes[i]? =
      if i = db.nodeIdOf certname then some ⟨certname, false⟩ else db.nodes[i]? :=
    db.getElem?_nodesWith certname i
  have hrow (r : CatalogRow) : r ∈ (db.storeCatalog certname catalog).catalogs.rows ↔
      r = ⟨db.nodeIdOf certname, catalog⟩ ∨
        r ∈ db.catalogs.rows ∧ r.nodeId ≠ db.nodeIdOf certname :=
    KeyedTable.mem_replace
  split_ifs with hc
  · subst hc
    refine getCatalog_eq_some_iff.2 ⟨db.nodeIdOf certname', ?_, (hrow _).2 (.inl rfl)⟩
    rw [hnode, if_pos rfl]
  · refine Option.ext fun t ↦ ?_
    rw [getCatalog_eq_some_iff, getCatalog_eq_some_iff]
    refine exists_congr fun i ↦ ?_
    rw [hnode, hrow]
    by_cases hi : i = db.nodeIdOf certname
    · rw [if_pos hi]
      constructor
      · rintro ⟨heq, -⟩
        exact absurd (congrArg NodeRow.certname (Option.some.inj heq)).symm hc
      · rintro ⟨hat, -⟩
        exact absurd (db.certname_of_nodeIdOf (hi ▸ hat)) hc
    · rw [if_neg hi]
      simp [hi]

/-- Where all nodes are active, a node that is created or seen again changes no stored catalog. -/
theorem getCatalog_getOrCreateNode (hactive : db.AllActive) :
    (db.getOrCreateNode certname).getCatalog certname' = db.getCatalog certname' := by
  refine Option.ext fun t ↦ ?_
  rw [getCatalog_eq_some_iff, getCatalog_eq_some_iff]
  refine exists_congr fun i ↦ and_congr_left fun hrow ↦ ?_
  have hnode : (db.getOrCreateNode certname).nodes[i]? =
      if i = db.nodeIdOf certname then some ⟨certname, false⟩ else db.nodes[i]? :=
    db.getElem?_nodesWith certname i
  rw [hnode]
  split_ifs with hi
  · have hat := List.getElem?_eq_getElem (db.catalogsNodes _ hrow)
    obtain ⟨n, hn⟩ : ∃ n, db.nodes[i]? = some n := ⟨_, hat⟩
    have hname := db.certname_of_nodeIdOf (hi ▸ hn)
    rw [hn, ← hname, ← hactive n (List.mem_of_getElem? hn)]
  · rfl

theorem AllActive.getOrCreateNode (h : db.AllActive) :
    (db.getOrCreateNode certname).AllActive := by
  intro n hn
  obtain ⟨i, hi⟩ := List.getElem?_of_mem hn
  have hnode : (db.getOrCreateNode certname).nodes[i]? =
      if i = db.nodeIdOf certname then some ⟨certname, false⟩ else db.nodes[i]? :=
    db.getElem?_nodesWith certname i
  rw [hnode] at hi
  split_ifs at hi with hid
  · rw [← Option.some.inj hi]
  · exact h n (List.mem_of_getElem? hi)

end PuppetDb

end PuppetC
