import PuppetC.Server.CatalogRequests
import PuppetC.Server.ExportText

/-!
# Histories of exports

Compiles of the nodes export resources to PuppetDB, one after the other; a node may be
deactivated in between. What PuppetDB holds of a resource is one row for its type and title, so
a compile takes the rows over that another node exported under the same names, and rows that are
not exported any more stay. As long as neither happens, PuppetDB holds exactly what the nodes
exported in their last compiles.

## Main definitions

* `CompileEvent`, `ExportEvent`: what happens to PuppetDB.
* `lastExports`, `isActiveNode`: what the last compile of a node exported, and whether the node is
  active.
* `CompileEvent.Meets`, `IsSettled`: no compile takes over or leaves behind a row.
* `PuppetDb.Represents`: the rows are those of given resources.

## Main results

* `handleCatalog_eq_afterCompile`: what a request does to PuppetDB.
* `PuppetDb.Represents.storeExports`: what is exported takes the place of what has its names.
* `IsSettled.represents`: after a settled history, PuppetDB holds what the last compiles exported.
-/

namespace PuppetC

/-! ### Events -/

/-- What a compile of a node stores in PuppetDB: what the node exports and, unless the compile
fails, its facts and its catalog. -/
structure CompileEvent where
  certname : String
  exports : List VirtualResource
  stored : Option (Option Bytes × Bytes)

/-- Something that happens to PuppetDB. -/
inductive ExportEvent where
  | compiled (e : CompileEvent)
  | deactivated (certname : String)

namespace PuppetDb

/-- The database after a compile. -/
def afterCompile (db : PuppetDb) (e : CompileEvent) : PuppetDb :=
  let db := db.storeExports (e.exports.map fun r ↦ (e.certname, r))
  match e.stored with
  | none => db
  | some (facts, catalog) =>
    let db :=
      match facts with
      | some facts => db.storeFacts e.certname.toList facts
      | none => db
    db.storeCatalog e.certname.toList catalog

/-- `puppetdb_deactivate_node`. -/
def deactivateNode (db : PuppetDb) (certname : Bytes) : PuppetDb :=
  let deactivate (n : NodeRow) : NodeRow :=
    if n.certname = certname then { n with deactivated := true } else n
  have hcertname (n : NodeRow) : (deactivate n).certname = n.certname := by
    simp only [deactivate]
    split_ifs <;> rfl
  { db with
    nodes := db.nodes.map deactivate
    certnames := by
      have hmap : (db.nodes.map deactivate).map NodeRow.certname =
          db.nodes.map NodeRow.certname := by
        rw [List.map_map]
        exact List.map_congr_left fun n _ ↦ hcertname n
      rw [hmap]
      exact db.certnames
    factsNodes := by simpa using db.factsNodes
    catalogsNodes := by simpa using db.catalogsNodes
    exportedNodes := by simpa using db.exportedNodes }

/-- The database after events, the last of which comes first. -/
def afterEvents : List ExportEvent → PuppetDb
  | [] => .empty
  | .compiled e :: events => (afterEvents events).afterCompile e
  | .deactivated certname :: events => (afterEvents events).deactivateNode certname.toList

end PuppetDb

/-- What a request for a catalog does to PuppetDB. -/
theorem handleCatalog_eq_afterCompile (db : PuppetDb) (q : CatalogRequest) {out : CompileOutcome}
    {rs : List VirtualResource}
    (hexports : out.exports = rs.map fun r ↦ (String.ofList q.certname, r)) :
    (handleCatalog (some db) q out).2 = some (db.afterCompile ⟨String.ofList q.certname, rs,
      out.ending.text.map fun text ↦ (q.facts.map Json.toText, text)⟩) := by
  rw [handleCatalog, hexports]
  cases out.ending.text with
  | none => rfl
  | some text => cases q.facts <;> simp [PuppetDb.afterCompile]

/-! ### What nodes exported -/

/-- What a node exported in its last compile. -/
def lastExports : List ExportEvent → String → List VirtualResource
  | [], _ => []
  | .compiled e :: events, n => if n = e.certname then e.exports else lastExports events n
  | .deactivated _ :: events, n => lastExports events n

/-- A node is active: it was compiled, and not deactivated after that. -/
def isActiveNode : List ExportEvent → String → Bool
  | [], _ => false
  | .compiled e :: events, n => n == e.certname || isActiveNode events n
  | .deactivated certname :: events, n => n != certname && isActiveNode events n

/-- A resource and its node: what the node exported in its last compile. -/
def IsExported (events : List ExportEvent) (p : String × VirtualResource) : Prop :=
  p.2 ∈ lastExports events p.1

/-- The names that PuppetDB tells exported resources apart by. -/
def VirtualResource.names (r : VirtualResource) : String × String := (r.type, r.title)

/-- The names that a catalog tells resources apart by. -/
def VirtualResource.identity (r : VirtualResource) : String × String := (lowerText r.type, r.title)

/-- Resources that a node exports after events, in this order, can be told apart from each other
and from what other nodes exported, and are read as they were exported. -/
structure ExportsFit (events : List ExportEvent) (n : String) (rs : List VirtualResource) :
    Prop where
  certname : IsSplicedText n
  exportable : ∀ r ∈ rs, r.Exportable
  distinct : (rs.map VirtualResource.identity).Nodup
  free : ∀ p, IsExported events p → p.1 ≠ n → ∀ r ∈ rs, r.identity ≠ p.2.identity

/-- A compile exports everything again that the last compile of its node exported, and what it
exports fits. -/
structure CompileEvent.Meets (e : CompileEvent) (events : List ExportEvent) : Prop where
  fits : ExportsFit events e.certname e.exports
  kept : ∀ r ∈ lastExports events e.certname, ∃ r' ∈ e.exports, r'.names = r.names

/-- No compile takes over or leaves behind a row. -/
def IsSettled : List ExportEvent → Prop
  | [] => True
  | .compiled e :: events => e.Meets events ∧ IsSettled events
  | .deactivated _ :: events => IsSettled events

/-! ### The rows of PuppetDB -/

namespace PuppetDb

variable {db : PuppetDb} {S : String × VirtualResource → Prop} {p : String × VirtualResource}

/-- The certname of a node. -/
def certname? (db : PuppetDb) (i : ℕ) : Option Bytes := (db.nodes[i]?).map NodeRow.certname

/-- A row is that of a resource and the node it belongs to. -/
structure RowOf (db : PuppetDb) (e : ExportedRow) (p : String × VirtualResource) : Prop where
  node : db.certname? e.nodeId = some p.1.toList
  row : IsRowOf (e, p.1.toList) p

/-- The rows of exported resources are those of given resources. -/
structure Represents (db : PuppetDb) (S : String × VirtualResource → Prop) : Prop where
  sound : ∀ e ∈ db.exported.rows, ∃ p, S p ∧ db.RowOf e p
  complete : ∀ p, S p → ∃ e ∈ db.exported.rows, db.RowOf e p

/-- A certname is that of an active node. -/
def HasActive (db : PuppetDb) (certname : Bytes) : Prop :=
  ∃ i : ℕ, db.nodes[i]? = some ⟨certname, false⟩

theorem getElem?_getOrCreateNode (certname : Bytes) (i : ℕ) :
    (db.getOrCreateNode certname).nodes[i]? =
      if i = db.nodeIdOf certname then some ⟨certname, false⟩ else db.nodes[i]? :=
  db.getElem?_nodesWith certname i

/-- Nodes that are there keep their certnames. -/
theorem certname?_getOrCreateNode {certname : Bytes} {i : ℕ} (hi : i < db.nodes.length) :
    (db.getOrCreateNode certname).certname? i = db.certname? i := by
  rw [certname?, getElem?_getOrCreateNode, certname?]
  split_ifs with hid
  · subst hid
    have hat := List.getElem?_eq_getElem hi
    rw [hat, Option.map_some, Option.map_some, db.certname_of_nodeIdOf hat]
  · rfl

theorem certname?_nodeIdOf (certname : Bytes) :
    (db.getOrCreateNode certname).certname? (db.nodeIdOf certname) = some certname := by
  rw [certname?, getElem?_getOrCreateNode, if_pos rfl, Option.map_some]

theorem hasActive_getOrCreateNode_iff {certname c : Bytes} :
    (db.getOrCreateNode certname).HasActive c ↔ c = certname ∨ db.HasActive c := by
  constructor
  · rintro ⟨i, hi⟩
    rw [getElem?_getOrCreateNode] at hi
    split_ifs at hi with hid
    · exact .inl (congrArg NodeRow.certname (Option.some.inj hi)).symm
    · exact .inr ⟨i, hi⟩
  · intro h
    by_cases hc : c = certname
    · subst hc
      exact ⟨db.nodeIdOf c, by rw [getElem?_getOrCreateNode, if_pos rfl]⟩
    · obtain ⟨i, hi⟩ := h.resolve_left hc
      refine ⟨i, ?_⟩
      rw [getElem?_getOrCreateNode, if_neg, hi]
      rintro rfl
      exact hc (db.certname_of_nodeIdOf hi)

/-- Rows stay those of their resources when a node is created or seen again. -/
theorem Represents.getOrCreateNode (h : db.Represents S) (certname : Bytes) :
    (db.getOrCreateNode certname).Represents S where
  sound := by
    intro e he
    obtain ⟨p, hp, hrow⟩ := h.sound e he
    exact ⟨p, hp, (certname?_getOrCreateNode (db.exportedNodes e he)).trans hrow.node, hrow.row⟩
  complete := by
    intro p hp
    obtain ⟨e, he, hrow⟩ := h.complete p hp
    exact ⟨e, he, (certname?_getOrCreateNode (db.exportedNodes e he)).trans hrow.node, hrow.row⟩

/-- An exported resource takes the place of the one that has its names. -/
theorem Represents.storeExport (h : db.Represents S) (p : String × VirtualResource) :
    (db.storeExport p).Represents fun p' ↦ p' = p ∨ S p' ∧ p'.2.names ≠ p.2.names := by
  have hnew : (db.storeExport p).RowOf ⟨db.nodeIdOf p.1.toList, p.2.type.toList,
      p.2.title.toList, parametersJson p.2.attrs, ['[', ']']⟩ p :=
    ⟨certname?_nodeIdOf _, rfl, rfl, rfl, rfl, rfl⟩
  have hold {e : ExportedRow} (he : e ∈ db.exported.rows) {p' : String × VirtualResource}
      (hrow : db.RowOf e p') : (db.storeExport p).RowOf e p' :=
    ⟨(certname?_getOrCreateNode (db.exportedNodes e he)).trans hrow.node, hrow.row⟩
  have hkey {e : ExportedRow} {p' : String × VirtualResource} (hrow : db.RowOf e p') :
      e.key ≠ (p.2.type.toList, p.2.title.toList) ↔ p'.2.names ≠ p.2.names := by
    rw [ExportedRow.key, hrow.row.type, hrow.row.title]
    simp [VirtualResource.names, String.toList_inj]
  constructor
  · intro e he
    rcases KeyedTable.mem_replace.1 he with rfl | ⟨he, hne⟩
    · exact ⟨p, .inl rfl, hnew⟩
    · obtain ⟨p', hp', hrow⟩ := h.sound e he
      exact ⟨p', .inr ⟨hp', (hkey hrow).1 hne⟩, hold he hrow⟩
  · rintro p' (rfl | ⟨hp', hne⟩)
    · exact ⟨_, KeyedTable.mem_replace.2 (.inl rfl), hnew⟩
    · obtain ⟨e, he, hrow⟩ := h.complete p' hp'
      exact ⟨e, KeyedTable.mem_replace.2 (.inr ⟨he, (hkey hrow).2 hne⟩), hold he hrow⟩

theorem Represents.congr {T : String × VirtualResource → Prop} (h : db.Represents S)
    (hST : ∀ p, S p ↔ T p) : db.Represents T :=
  (funext fun p ↦ propext (hST p) : S = T) ▸ h

/-- Only the nodes and the exported resources matter. -/
theorem Represents.of_eq {db' : PuppetDb} (h : db.Represents S) (hnodes : db'.nodes = db.nodes)
    (hexported : db'.exported = db.exported) : db'.Represents S := by
  have hrow (e : ExportedRow) (p : String × VirtualResource) (hrow : db.RowOf e p) :
      db'.RowOf e p := ⟨by rw [certname?, hnodes]; exact hrow.node, hrow.row⟩
  constructor
  · intro e he
    obtain ⟨p, hp, h⟩ := h.sound e (hexported ▸ he)
    exact ⟨p, hp, hrow e p h⟩
  · intro p hp
    obtain ⟨e, he, h⟩ := h.complete p hp
    exact ⟨e, hexported ▸ he, hrow e p h⟩

/-- What a node exports takes the place of what has its names. -/
theorem Represents.storeExports (h : db.Represents S) (n : String) {rs : List VirtualResource}
    (hdistinct : (rs.map VirtualResource.names).Nodup) :
    (db.storeExports (rs.map fun r ↦ (n, r))).Represents fun p ↦
      (p.1 = n ∧ p.2 ∈ rs) ∨ S p ∧ ∀ r ∈ rs, p.2.names ≠ r.names := by
  induction rs generalizing db S with
  | nil => exact h.congr fun p ↦ by simp
  | cons r rs ih =>
    obtain ⟨hr, hrs⟩ := List.nodup_cons.1 hdistinct
    have hr : ∀ r' ∈ rs, r.names ≠ r'.names := fun r' hr' heq ↦
      hr (heq ▸ List.mem_map_of_mem hr')
    refine (ih (h.storeExport (n, r)) hrs).congr fun p ↦ ?_
    obtain ⟨n', r'⟩ := p
    rw [List.forall_mem_cons]
    simp only [List.mem_cons, Prod.mk.injEq]
    constructor
    · rintro (⟨rfl, hmem⟩ | ⟨⟨rfl, rfl⟩ | ⟨hS, hne⟩, hall⟩)
      · exact .inl ⟨rfl, .inr hmem⟩
      · exact .inl ⟨rfl, .inl rfl⟩
      · exact .inr ⟨hS, hne, hall⟩
    · rintro (⟨rfl, rfl | hmem⟩ | ⟨hS, hne, hall⟩)
      · exact .inr ⟨.inl ⟨rfl, rfl⟩, hr⟩
      · exact .inl ⟨rfl, hmem⟩
      · exact .inr ⟨.inr ⟨hS, hne⟩, hall⟩

theorem hasActive_storeExports_iff {n : String} {rs : List VirtualResource} {c : Bytes}
    (hc : c ≠ n.toList) :
    (db.storeExports (rs.map fun r ↦ (n, r))).HasActive c ↔ db.HasActive c := by
  induction rs generalizing db with
  | nil => rfl
  | cons r rs ih => exact ih.trans (hasActive_getOrCreateNode_iff.trans (or_iff_right hc))

theorem Represents.afterCompile (h : db.Represents S) {e : CompileEvent}
    (hdistinct : (e.exports.map VirtualResource.names).Nodup) :
    (db.afterCompile e).Represents fun p ↦
      (p.1 = e.certname ∧ p.2 ∈ e.exports) ∨ S p ∧ ∀ r ∈ e.exports, p.2.names ≠ r.names := by
  have hexports := h.storeExports e.certname hdistinct
  rw [PuppetDb.afterCompile]
  rcases e.stored with - | ⟨facts, catalog⟩
  · exact hexports
  · cases facts with
    | none => exact (hexports.getOrCreateNode e.certname.toList).of_eq rfl rfl
    | some facts =>
      have hfacts : ((db.storeExports _).storeFacts e.certname.toList facts).Represents _ :=
        (hexports.getOrCreateNode e.certname.toList).of_eq rfl rfl
      exact (hfacts.getOrCreateNode e.certname.toList).of_eq rfl rfl

/-- A compile does not make other nodes active. -/
theorem hasActive_afterCompile_iff {e : CompileEvent} {c : Bytes} (hc : c ≠ e.certname.toList) :
    (db.afterCompile e).HasActive c ↔ db.HasActive c := by
  have hcreate {d : PuppetDb} : (d.getOrCreateNode e.certname.toList).HasActive c ↔
      d.HasActive c := hasActive_getOrCreateNode_iff.trans (or_iff_right hc)
  have hsame : (db.storeExports (e.exports.map fun r ↦ (e.certname, r))).HasActive c ↔
      db.HasActive c := hasActive_storeExports_iff hc
  rw [PuppetDb.afterCompile, ← hsame]
  rcases e.stored with - | ⟨facts, catalog⟩
  · rfl
  · cases facts with
    | none => exact hcreate
    | some facts => exact hcreate.trans hcreate

/-- A node that exports something is active. -/
theorem hasActive_storeExports {n : String} {rs : List VirtualResource} (hrs : rs ≠ []) :
    (db.storeExports (rs.map fun r ↦ (n, r))).HasActive n.toList := by
  induction rs generalizing db with
  | nil => exact absurd rfl hrs
  | cons r rs ih =>
    cases rs with
    | nil => exact hasActive_getOrCreateNode_iff.2 (.inl rfl)
    | cons r' rs => exact ih (List.cons_ne_nil r' rs)

theorem hasActive_afterCompile {e : CompileEvent} (he : e.exports ≠ []) :
    (db.afterCompile e).HasActive e.certname.toList := by
  have hcreate (d : PuppetDb) : (d.getOrCreateNode e.certname.toList).HasActive
      e.certname.toList := hasActive_getOrCreateNode_iff.2 (.inl rfl)
  rw [PuppetDb.afterCompile]
  rcases e.stored with - | ⟨facts, catalog⟩
  · exact hasActive_storeExports he
  · exact hcreate _

theorem getElem?_deactivateNode (certname : Bytes) (i : ℕ) :
    (db.deactivateNode certname).nodes[i]? = (db.nodes[i]?).map fun n ↦
      if n.certname = certname then { n with deactivated := true } else n :=
  List.getElem?_map

theorem hasActive_deactivateNode_iff {certname c : Bytes} :
    (db.deactivateNode certname).HasActive c ↔ c ≠ certname ∧ db.HasActive c := by
  constructor
  · rintro ⟨i, hi⟩
    rw [getElem?_deactivateNode] at hi
    obtain ⟨n, hn, heq⟩ := Option.map_eq_some_iff.1 hi
    split_ifs at heq with hname
    · exact absurd (congrArg NodeRow.deactivated heq) (by simp)
    · subst heq
      exact ⟨hname, i, hn⟩
  · rintro ⟨hne, i, hi⟩
    exact ⟨i, by rw [getElem?_deactivateNode, hi, Option.map_some, if_neg hne]⟩

theorem Represents.deactivateNode (h : db.Represents S) (certname : Bytes) :
    (db.deactivateNode certname).Represents S := by
  have hname (i : ℕ) : (db.deactivateNode certname).certname? i = db.certname? i := by
    rw [certname?, getElem?_deactivateNode, Option.map_map, certname?]
    cases db.nodes[i]? with
    | none => rfl
    | some n =>
      simp only [Option.map_some, Function.comp_apply]
      split_ifs <;> rfl
  constructor
  · intro e he
    obtain ⟨p, hp, hrow⟩ := h.sound e he
    exact ⟨p, hp, (hname _).trans hrow.node, hrow.row⟩
  · intro p hp
    obtain ⟨e, he, hrow⟩ := h.complete p hp
    exact ⟨e, he, (hname _).trans hrow.node, hrow.row⟩

end PuppetDb

/-! ### Settled histories -/

theorem VirtualResource.identity_eq {r r' : VirtualResource} (h : r.names = r'.names) :
    r.identity = r'.identity := by
  obtain ⟨htype, htitle⟩ := Prod.mk.inj h
  rw [identity, identity, htype, htitle]

theorem ExportsFit.distinct_names {events : List ExportEvent} {n : String}
    {rs : List VirtualResource} (h : ExportsFit events n rs) :
    (rs.map VirtualResource.names).Nodup := by
  have hmap : (rs.map VirtualResource.names).map (fun x ↦ (lowerText x.1, x.2)) =
      rs.map VirtualResource.identity := by
    rw [List.map_map]
    rfl
  exact List.Nodup.of_map _ (hmap ▸ h.distinct)

theorem ExportsFit.names_ne {events : List ExportEvent} {n : String} {rs : List VirtualResource}
    (h : ExportsFit events n rs) {p : String × VirtualResource} (hp : IsExported events p)
    (hn : p.1 ≠ n) : ∀ r ∈ rs, p.2.names ≠ r.names :=
  fun r hr heq ↦ h.free p hp hn r hr (VirtualResource.identity_eq heq.symm)

namespace IsSettled

variable {events : List ExportEvent} {p p' : String × VirtualResource}

/-- After a settled history, PuppetDB holds what the last compiles exported. -/
theorem represents (h : IsSettled events) :
    (PuppetDb.afterEvents events).Represents (IsExported events) := by
  induction events with
  | nil => exact ⟨(by intro e he; cases he), by intro p hp; cases hp⟩
  | cons event events ih =>
    cases event with
    | deactivated n => exact (ih h).deactivateNode n.toList
    | compiled e =>
      obtain ⟨hmeets, h⟩ := h
      refine ((ih h).afterCompile hmeets.fits.distinct_names).congr fun p ↦ ?_
      change _ ↔ p.2 ∈ if p.1 = e.certname then e.exports else lastExports events p.1
      split_ifs with hn
      · refine ⟨fun hp ↦ (hp.resolve_right ?_).2, fun hp ↦ .inl ⟨hn, hp⟩⟩
        rintro ⟨hexported, hne⟩
        obtain ⟨r', hr', hnames⟩ := hmeets.kept p.2 (hn ▸ hexported)
        exact hne r' hr' hnames.symm
      · exact ⟨fun hp ↦ (hp.resolve_left fun hp ↦ hn hp.1).1,
          fun hp ↦ .inr ⟨hp, hmeets.fits.names_ne hp hn⟩⟩

/-- PuppetDB knows whether a node that exports something is active. -/
theorem hasActive_iff (hp : IsExported events p) :
    (PuppetDb.afterEvents events).HasActive p.1.toList ↔ isActiveNode events p.1 = true := by
  induction events with
  | nil => cases hp
  | cons event events ih =>
    cases event with
    | deactivated c =>
      rw [PuppetDb.afterEvents, PuppetDb.hasActive_deactivateNode_iff, ih hp, isActiveNode]
      simp [String.toList_inj]
    | compiled e =>
      rw [IsExported, lastExports] at hp
      rw [PuppetDb.afterEvents, isActiveNode]
      split_ifs at hp with hn
      · have hactive : ((PuppetDb.afterEvents events).afterCompile e).HasActive
            e.certname.toList := PuppetDb.hasActive_afterCompile (List.ne_nil_of_mem hp)
        simp [hn, hactive]
      · rw [PuppetDb.hasActive_afterCompile_iff fun heq ↦ hn (String.toList_inj.1 heq), ih hp]
        simp [hn]

/-- What is exported is read as it was exported. -/
theorem readable (h : IsSettled events) (hp : IsExported events p) :
    p.2.Exportable ∧ IsSplicedText p.1 := by
  induction events with
  | nil => cases hp
  | cons event events ih =>
    cases event with
    | deactivated n => exact ih h hp
    | compiled e =>
      obtain ⟨hmeets, h⟩ := h
      rw [IsExported, lastExports] at hp
      split_ifs at hp with hn
      · exact ⟨hmeets.fits.exportable p.2 hp, hn ▸ hmeets.fits.certname⟩
      · exact ih h hp

/-- No two exported resources have one identity. -/
theorem eq_of_identity_eq (h : IsSettled events) (hp : IsExported events p)
    (hp' : IsExported events p') (heq : p.2.identity = p'.2.identity) : p = p' := by
  induction events with
  | nil => cases hp
  | cons event events ih =>
    cases event with
    | deactivated n => exact ih h hp hp'
    | compiled e =>
      obtain ⟨hmeets, h⟩ := h
      rw [IsExported, lastExports] at hp hp'
      split_ifs at hp hp' with hn hn' hn'
      · exact Prod.ext (hn.trans hn'.symm)
          (List.inj_on_of_nodup_map hmeets.fits.distinct hp hp' heq)
      · exact absurd heq (hmeets.fits.free p' hp' hn' p.2 hp)
      · exact absurd heq.symm (hmeets.fits.free p hp hn p'.2 hp')
      · exact ih h hp hp'

end IsSettled

end PuppetC
