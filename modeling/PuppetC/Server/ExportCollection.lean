import PuppetC.Interp.Collectors
import PuppetC.Server.ExportHistory

/-!
# Collecting exported resources

A collector of exported resources adds to the catalog of a node what PuppetDB answers for its
type, other than what the node itself exported. It should add what the other active nodes
exported in their last compiles, as far as it satisfies the search expression; resources of a
defined type should have their bodies run, and resources under one name be reported. The
interpreter does so after a settled history, if the search expression leaves nothing out, no
defined type is exported, and nothing that is collected is declared already: it ignores the search
expression and the defined types, and skips what is declared.

## Main definitions

* `Catalog.contents`: the resources of a catalog, with their parameters.
* `IsWanted`, `HasDuplicates`, `CollectsExactly`: what a collector should do.
* `CollectsSafely`: the condition under which it does.

## Main results

* `PuppetDb.Represents.exists_rows`: what PuppetDB answers.
* `contents_of_collectExported`: what the interpreter adds.
* `exists_readExported`: what it answers after a settled history is what other nodes exported.
* `collectsExactly_of_collectsSafely`: under the condition, the interpreter adds what it should.
* `not_collectsExactly_noMore`: what a node does not export any more is collected nevertheless.
-/

namespace PuppetC

/-! ### What PuppetDB answers -/

theorem exists_forall₂ {α β : Type} {R : α → β → Prop} {as : List α}
    (h : ∀ a ∈ as, ∃ b, R a b) : ∃ bs, List.Forall₂ R as bs := by
  induction as with
  | nil => exact ⟨[], .nil⟩
  | cons a as ih =>
    obtain ⟨ha, has⟩ := List.forall_mem_cons.1 h
    obtain ⟨b, hb⟩ := ha
    obtain ⟨bs, hbs⟩ := ih has
    exact ⟨b :: bs, .cons hb hbs⟩

theorem exists_mem_right {α β : Type} {R : α → β → Prop} {as : List α} {bs : List β}
    (h : List.Forall₂ R as bs) {a : α} (ha : a ∈ as) : ∃ b ∈ bs, R a b := by
  induction h with
  | nil => cases ha
  | cons hab _ ih =>
    rcases List.mem_cons.1 ha with rfl | ha
    · exact ⟨_, List.mem_cons_self, hab⟩
    · obtain ⟨b, hb, hR⟩ := ih ha
      exact ⟨b, List.mem_cons_of_mem _ hb, hR⟩

theorem keys_eq_of_forall₂ {es : List (ExportedRow × Bytes)} {ps : List (String × VirtualResource)}
    (h : List.Forall₂ IsRowOf es ps) :
    (es.map fun e ↦ e.1.key) = ps.map fun p ↦ (p.2.type.toList, p.2.title.toList) := by
  induction h with
  | nil => rfl
  | cons hrow _ ih => rw [List.map_cons, List.map_cons, ih, ExportedRow.key, hrow.type, hrow.title]

theorem noCase_iff {s t : String} :
    PuppetDb.noCase s.toList t.toList = true ↔ lowerText s = lowerText t := by
  simp [PuppetDb.noCase, lowerText, String.ofList_inj]

namespace PuppetDb

variable {db : PuppetDb} {S : String × VirtualResource → Prop}

theorem mem_exportedOfType_iff {e : ExportedRow} {certname type : Bytes} :
    (e, certname) ∈ db.exportedOfType type ↔
      e ∈ db.exported.rows ∧ db.nodes[e.nodeId]? = some ⟨certname, false⟩ ∧
        noCase e.type type = true := by
  rw [exportedOfType, List.mem_filterMap]
  constructor
  · rintro ⟨r, hr, h⟩
    cases hn : db.nodes[r.nodeId]? with
    | none => simp [hn] at h
    | some n =>
      rw [hn] at h
      dsimp only at h
      split_ifs at h with hcond
      obtain ⟨rfl, rfl⟩ := Prod.mk.inj (Option.some.inj h)
      simp only [Bool.and_eq_true, Bool.not_eq_true'] at hcond
      exact ⟨hr, by rw [hn, ← hcond.2], hcond.1⟩
  · rintro ⟨hr, hn, htype⟩
    exact ⟨e, hr, by simp [hn, htype]⟩

theorem nodup_keys_exportedOfType (db : PuppetDb) (type : Bytes) :
    ((db.exportedOfType type).map fun e ↦ e.1.key).Nodup := by
  have hsub : ((db.exportedOfType type).map Prod.fst).Sublist db.exported.rows := by
    rw [exportedOfType]
    induction db.exported.rows with
    | nil => exact .slnil
    | cons r rs ih =>
      rw [List.filterMap_cons]
      cases hn : db.nodes[r.nodeId]? with
      | none => exact ih.cons r
      | some n =>
        dsimp only
        split_ifs
        · exact ih.cons_cons r
        · exact ih.cons r
  have hmap : ((db.exportedOfType type).map fun e ↦ e.1.key) =
      ((db.exportedOfType type).map Prod.fst).map ExportedRow.key := by
    rw [List.map_map]
    rfl
  rw [hmap]
  exact db.exported.nodup.sublist (hsub.map _)

/-- What PuppetDB answers are the rows of those of the represented resources that belong to active
nodes and have the type. -/
theorem Represents.exists_rows (h : db.Represents S) (type : String) :
    ∃ ps : List (String × VirtualResource),
      List.Forall₂ IsRowOf (db.exportedOfType type.toList) ps ∧
      (ps.map fun p ↦ p.2.names).Nodup ∧
      (∀ p ∈ ps, S p ∧ db.HasActive p.1.toList ∧ lowerText p.2.type = lowerText type) ∧
      ∀ p, S p → db.HasActive p.1.toList → lowerText p.2.type = lowerText type →
        ∃ p' ∈ ps, p'.1 = p.1 ∧ p'.2.names = p.2.names := by
  have hone : ∀ e ∈ db.exportedOfType type.toList, ∃ p, IsRowOf e p ∧ S p ∧
      db.HasActive p.1.toList ∧ lowerText p.2.type = lowerText type := by
    rintro ⟨e, certname⟩ he
    obtain ⟨he, hn, htype⟩ := mem_exportedOfType_iff.1 he
    obtain ⟨p, hp, hnode, hrow⟩ := h.sound e he
    rw [certname?, hn, Option.map_some, Option.some.injEq] at hnode
    dsimp only at hnode
    subst hnode
    refine ⟨p, hrow, hp, ⟨_, hn⟩, ?_⟩
    rw [hrow.type] at htype
    exact noCase_iff.1 htype
  obtain ⟨ps, hps⟩ := exists_forall₂ hone
  have hrows : List.Forall₂ IsRowOf (db.exportedOfType type.toList) ps :=
    hps.imp fun _ _ h ↦ h.1
  have hright : ∀ p ∈ ps, S p ∧ db.HasActive p.1.toList ∧ lowerText p.2.type = lowerText type := by
    intro p hp
    obtain ⟨e, -, -, h⟩ := exists_mem_right hps.flip hp
    exact h
  refine ⟨ps, hrows, ?_, hright, fun p hp hactive htype ↦ ?_⟩
  · have hnodup := db.nodup_keys_exportedOfType type.toList
    rw [keys_eq_of_forall₂ hrows] at hnodup
    have hmap : (ps.map fun p ↦ p.2.names).map (fun x ↦ (x.1.toList, x.2.toList)) =
        ps.map fun p ↦ (p.2.type.toList, p.2.title.toList) := by
      rw [List.map_map]
      rfl
    exact List.Nodup.of_map _ (hmap ▸ hnodup)
  · obtain ⟨i, hi⟩ := hactive
    obtain ⟨e, he, hnode, hrow⟩ := h.complete p hp
    obtain ⟨n, hn, hname⟩ := Option.map_eq_some_iff.1 hnode
    have hid : e.nodeId = i := node_unique hn hi hname
    have hmem : (e, p.1.toList) ∈ db.exportedOfType type.toList :=
      mem_exportedOfType_iff.2 ⟨he, hid ▸ hi, by rw [hrow.type]; exact noCase_iff.2 htype⟩
    obtain ⟨p', hp', hrow'⟩ := exists_mem_right hrows hmem
    refine ⟨p', hp', ?_, ?_⟩
    · exact String.toList_inj.1 (hrow'.certname.symm.trans hrow.certname)
    · exact Prod.ext (String.toList_inj.1 (hrow'.type.symm.trans hrow.type))
        (String.toList_inj.1 (hrow'.title.symm.trans hrow.title))

end PuppetDb

/-! ### What the interpreter adds -/

/-- The names and parameters of a resource. -/
def CatalogResource.content (r : CatalogResource) : String × String × List (String × Value) :=
  (r.type, r.title, r.parameters)

/-- The resources of a catalog, with their parameters. -/
def Catalog.contents (c : Catalog) : List (String × String × List (String × Value)) :=
  c.resources.map CatalogResource.content

/-- The names and parameters of an exported resource. -/
def ExportedResource.content (r : ExportedResource) : String × String × List (String × Value) :=
  (r.type, r.title, r.parameters)

theorem Catalog.contents_changeFound (c : Catalog) (type title : String)
    {f : CatalogResource → CatalogResource} (hf : ∀ r, (f r).content = r.content) :
    (c.changeFound type title f).contents = c.contents := by
  have hlist : ∀ rs : List CatalogResource,
      (Catalog.changeResource type title f rs).map CatalogResource.content =
        rs.map CatalogResource.content := by
    intro rs
    induction rs with
    | nil => rfl
    | cons r rs ih =>
      rw [Catalog.changeResource]
      split_ifs
      · rw [List.map_cons, List.map_cons, hf]
      · rw [List.map_cons, List.map_cons, ih]
  exact hlist c.resources

theorem Catalog.contents_exportResource (c : Catalog) (type title : String) :
    (c.exportResource type title).contents = c.contents :=
  c.contents_changeFound type title fun _ ↦ rfl

theorem Catalog.findResource_eq_none_iff_contents {c : Catalog} {type title : String} :
    c.findResource type title = none ↔
      ∀ x ∈ c.contents, (lowerText x.1, x.2.1) ≠ (lowerText type, title) := by
  rw [Catalog.findResource_eq_none_iff, Catalog.contents, List.forall_mem_map]
  refine forall₂_congr fun r _ ↦ ?_
  simp [CatalogResource.content]

/-- A compile of a node is under way, and adds to its catalog. -/
structure Env.BuildsFor (env : Env) (m : String) (c : Catalog) : Prop where
  catalog : env.catalog = some c
  certname : c.certname = m
  building : env.buildCatalog = true

variable {w : World} {env env' : Env} {m : String} {c : Catalog} {r : ExportedResource}

theorem Env.BuildsFor.building_eq (h : env.BuildsFor m c) :
    EnvField.building.get env = true := by
  simp [EnvField.get, h.catalog, h.building]

/-- A resource that the node exported itself is skipped. -/
theorem collectExported_own (h : env.BuildsFor m c) (hown : r.certname = some m)
    (hrun : w.ReturnsQuiet (collectExported r) env () env') : env' = env := by
  rw [collectExported, returnsQuiet_bind_iff] at hrun
  obtain ⟨a, env₁, hread, hrun⟩ := hrun
  obtain ⟨rfl, rfl⟩ := returnsQuiet_read_iff.1 hread
  simp only [EnvField.get, h.catalog, hown, h.certname, beq_self_eq_true, if_true] at hrun
  exact (Prog.returns_pure_iff.1 hrun).2

/-- A resource of another node is collected like one of an unknown node. -/
theorem collectExported_other (h : env.BuildsFor m c) (hother : r.certname ≠ some m)
    (hrun : w.ReturnsQuiet (collectExported r) env () env') :
    w.ReturnsQuiet (collectExported { r with certname := none }) env () env' := by
  rw [collectExported, returnsQuiet_bind_iff] at hrun ⊢
  obtain ⟨a, env₁, hread, hrun⟩ := hrun
  obtain ⟨rfl, rfl⟩ := returnsQuiet_read_iff.1 hread
  refine ⟨_, _, hread, ?_⟩
  cases hc : r.certname with
  | none => simpa only [hc] using hrun
  | some certname =>
    have hne : (c.certname == certname) = false := by
      rw [h.certname]
      exact beq_false_of_ne fun heq ↦ hother (hc.trans (heq ▸ rfl))
    simp only [EnvField.get, h.catalog, hc, hne] at hrun ⊢
    exact hrun

/-- The catalog is replaced by another one of the node. -/
theorem changeCatalog_buildsFor {f : Catalog → Catalog} (h : env.BuildsFor m c)
    (hf : (f c).certname = c.certname)
    (hrun : w.ReturnsQuiet (perform (.changeCatalog f)) env () env') :
    env'.BuildsFor m (f c) ∧ env'.marks = env.marks := by
  rw [returnsQuiet_perform_iff] at hrun
  obtain ⟨-, rfl⟩ := Prod.mk.inj (Except.ok.inj hrun)
  refine ⟨⟨?_, hf.trans h.certname, h.building⟩, rfl⟩
  change env.catalog.map f = some (f c)
  rw [h.catalog, Option.map_some]

/-- The current tags do not touch names and parameters. -/
theorem applyCurrentTags_contents {type title : String} (h : env.BuildsFor m c)
    (hrun : w.ReturnsQuiet (applyCurrentTags type title) env () env') :
    ∃ c', env'.BuildsFor m c' ∧ c'.contents = c.contents ∧ env'.marks = env.marks := by
  rw [applyCurrentTags, returnsQuiet_bind_iff] at hrun
  obtain ⟨a, env₁, hread, hrun⟩ := hrun
  obtain ⟨rfl, rfl⟩ := returnsQuiet_read_iff.1 hread
  cases htags : EnvField.currentTags.get env₁ with
  | none =>
    simp only [htags] at hrun
    obtain rfl := (Prog.returns_pure_iff.1 hrun).2
    exact ⟨c, h, rfl, rfl⟩
  | some tags =>
    simp only [htags] at hrun
    obtain ⟨hbuilds, hmarks⟩ := changeCatalog_buildsFor h rfl hrun
    exact ⟨_, hbuilds, Catalog.contents_changeFound c type title fun r ↦ rfl, hmarks⟩

/-- A resource that is not declared yet is added. -/
theorem collectExported_new (h : env.BuildsFor m c) (hother : r.certname ≠ some m)
    (hmark : resourceId r.type r.title ∉ env.marks .resourceCatalog)
    (hnew : ∀ x ∈ c.contents, (lowerText x.1, x.2.1) ≠ (lowerText r.type, r.title))
    (hrun : w.ReturnsQuiet (collectExported r) env () env') :
    ∃ c', env'.BuildsFor m c' ∧ c'.contents = c.contents ++ [r.content] ∧
      ∀ id, id ∈ env'.marks .resourceCatalog → id = resourceId r.type r.title ∨
        id ∈ env.marks .resourceCatalog := by
  have hrun := collectExported_other h hother hrun
  rw [collectExported, returnsQuiet_bind_iff] at hrun
  obtain ⟨a, env₁, hread, hrun⟩ := hrun
  obtain ⟨rfl, rfl⟩ := returnsQuiet_read_iff.1 hread
  have hmarked : (env₁.marks .resourceCatalog).contains (resourceId r.type r.title) = false := by
    simpa using hmark
  simp only [Bool.false_eq_true, if_false, returnsQuiet_bind_iff, returnsQuiet_perform_iff,
    EnvPrim.handle, Except.ok.injEq, Prod.mk.injEq] at hrun
  obtain ⟨_, _, ⟨rfl, rfl⟩, hrun⟩ := hrun
  simp only [hmarked, Bool.false_eq_true, if_false, returnsQuiet_bind_iff,
    returnsQuiet_perform_iff, returnsQuiet_read_iff, EnvPrim.handle, Except.ok.injEq,
    Prod.mk.injEq] at hrun
  obtain ⟨_, env₂, ⟨-, rfl⟩, _, _, ⟨rfl, rfl⟩, hrun⟩ := hrun
  have hbuilds : (env₁.mark .resourceCatalog (resourceId r.type r.title)).BuildsFor m c :=
    ⟨h.catalog, h.certname, h.building⟩
  rw [hbuilds.building_eq, if_pos rfl, returnsQuiet_bind_iff] at hrun
  obtain ⟨added, env₃, hadd, hrun⟩ := hrun
  let c₃ : Catalog :=
    { c with resources := c.resources ++ [⟨r.type, r.title, r.parameters, [], false⟩] }
  have hadded : c.addResource r.type r.title r.parameters = some c₃ := by
    rw [Catalog.addResource, Catalog.findResource_eq_none_iff_contents.2 hnew]
  rw [returnsQuiet_perform_iff, EnvPrim.handle, hbuilds.catalog, Option.bind_some, hadded] at hadd
  obtain ⟨rfl, henv₃⟩ := Prod.mk.inj (Except.ok.inj hadd)
  have hbuilds₃ : env₃.BuildsFor m c₃ := by
    rw [← henv₃]
    exact ⟨rfl, h.certname, h.building⟩
  have hmarks₃ : env₃.marks = (env₁.mark .resourceCatalog (resourceId r.type r.title)).marks := by
    rw [← henv₃]
  rw [if_pos rfl, returnsQuiet_bind_iff] at hrun
  obtain ⟨_, env₄, hexport, htags⟩ := hrun
  obtain ⟨hbuilds₄, hmarks₄⟩ := changeCatalog_buildsFor hbuilds₃ rfl hexport
  obtain ⟨c', hbuilds', hcontents, hmarks'⟩ := applyCurrentTags_contents hbuilds₄ htags
  refine ⟨c', hbuilds', ?_, fun id hid ↦ ?_⟩
  · rw [hcontents, Catalog.contents_exportResource, Catalog.contents, List.map_append]
    rfl
  · rw [hmarks', hmarks₄, hmarks₃] at hid
    have hid : id ∈ if (env₁.marks .resourceCatalog).contains (resourceId r.type r.title) then
        env₁.marks .resourceCatalog else
          resourceId r.type r.title :: env₁.marks .resourceCatalog := hid
    rw [hmarked, if_neg Bool.false_ne_true] at hid
    exact List.mem_cons.1 hid

/-- Resources of types that differ in case only have one identifier only if they are named alike. -/
theorem resourceId_inj {type title type' title' : String} (htype : lowerText type = lowerText type')
    (h : resourceId type title = resourceId type' title') : type = type' ∧ title = title' := by
  have hlength : type.toList.length = type'.toList.length := by
    simpa [lowerText] using congrArg (fun s : String ↦ s.toList.length) htype
  have hlist := congrArg String.toList h
  simp only [resourceId, String.toList_append, List.append_assoc] at hlist
  obtain ⟨heq, hrest⟩ := List.append_inj hlist hlength
  have hlast := List.append_inj_left' (List.append_cancel_left hrest) rfl
  exact ⟨String.toList_inj.1 heq, String.toList_inj.1 hlast⟩

/-- What the interpreter adds: all resources that are not the node's own, if none of them is
declared yet and no two have one identity. -/
theorem contents_of_collectExported {type : String} {rs : List ExportedResource}
    (h : env.BuildsFor m c) (htype : ∀ r ∈ rs, lowerText r.type = lowerText type)
    (hdistinct : ((rs.filter fun r ↦ r.certname ≠ some m).map fun r ↦
      (lowerText r.type, r.title)).Nodup)
    (hmark : ∀ r ∈ rs, r.certname ≠ some m →
      resourceId r.type r.title ∉ env.marks .resourceCatalog)
    (hnew : ∀ r ∈ rs, r.certname ≠ some m →
      ∀ x ∈ c.contents, (lowerText x.1, x.2.1) ≠ (lowerText r.type, r.title))
    (hrun : w.ReturnsQuiet (rs.forM collectExported) env () env') :
    ∃ c', env'.BuildsFor m c' ∧ c'.contents =
      c.contents ++ (rs.filter fun r ↦ r.certname ≠ some m).map ExportedResource.content := by
  induction rs generalizing env c with
  | nil =>
    obtain rfl := (Prog.returns_pure_iff.1 hrun).2
    exact ⟨c, h, by simp⟩
  | cons r rs ih =>
    obtain ⟨env₁, hfirst, hrest⟩ := returnsQuiet_forM_cons_iff.1 hrun
    obtain ⟨htypeR, htype⟩ := List.forall_mem_cons.1 htype
    obtain ⟨hmarkR, hmark⟩ := List.forall_mem_cons.1 hmark
    obtain ⟨hnewR, hnew⟩ := List.forall_mem_cons.1 hnew
    by_cases hown : r.certname = some m
    · obtain rfl := collectExported_own h hown hfirst
      rw [List.filter_cons_of_neg (by simpa using hown)] at hdistinct ⊢
      exact ih h htype hdistinct hmark hnew hrest
    · obtain ⟨c₁, h₁, hcontents, hmarks⟩ :=
        collectExported_new h hown (hmarkR hown) (hnewR hown) hfirst
      rw [List.filter_cons_of_pos (by simpa using hown)] at hdistinct ⊢
      rw [List.map_cons, List.nodup_cons] at hdistinct
      have hne : ∀ r' ∈ rs, r'.certname ≠ some m →
          (lowerText r.type, r.title) ≠ (lowerText r'.type, r'.title) := by
        intro r' hr' hother heq
        exact hdistinct.1 (heq ▸ List.mem_map_of_mem
          (List.mem_filter.2 ⟨hr', by simpa using hother⟩))
      have hmark₁ : ∀ r' ∈ rs, r'.certname ≠ some m →
          resourceId r'.type r'.title ∉ env₁.marks .resourceCatalog := by
        intro r' hr' hother hmem
        rcases hmarks _ hmem with heq | hmem
        · obtain ⟨htypes, htitles⟩ :=
            resourceId_inj ((htype r' hr').trans htypeR.symm) heq
          exact hne r' hr' hother (by rw [htypes, htitles])
        · exact hmark r' hr' hother hmem
      have hnew₁ : ∀ r' ∈ rs, r'.certname ≠ some m →
          ∀ x ∈ c₁.contents, (lowerText x.1, x.2.1) ≠ (lowerText r'.type, r'.title) := by
        intro r' hr' hother x hx
        rw [hcontents] at hx
        rcases List.mem_append.1 hx with hx | hx
        · exact hnew r' hr' hother x hx
        · obtain rfl := List.mem_singleton.1 hx
          exact hne r' hr' hother
      obtain ⟨c', h', hcontents'⟩ := ih h₁ htype hdistinct.2 hmark₁ hnew₁ hrest
      refine ⟨c', h', ?_⟩
      rw [hcontents', hcontents, List.map_cons, List.append_assoc]
      rfl

/-! ### What a collector should do -/

/-- A resource of a type that another active node exported in its last compile. -/
structure IsOffered (events : List ExportEvent) (m type : String) (p : String × VirtualResource) :
    Prop where
  other : p.1 ≠ m
  active : isActiveNode events p.1 = true
  exported : IsExported events p
  type : lowerText p.2.type = lowerText type

variable (w) in
/-- A resource satisfies the search expression of a collector. -/
def Satisfies (env : Env) (filter : Option Expr) (r : VirtualResource) : Prop :=
  ∃ env₁, w.ReturnsQuiet (collects filter r) env true env₁

variable (w) in
/-- The type of a resource is a defined type. -/
def NamesDefine (env : Env) (r : VirtualResource) : Prop :=
  ∃ d env₁, w.ReturnsQuiet (findDefineAnywhere w r.type) env (some d) env₁

/-- A resource is declared already. -/
def IsDeclared (env : Env) (r : VirtualResource) : Prop :=
  resourceId r.type r.title ∈ env.marks .resourceCatalog ∨
    ∃ c, env.catalog = some c ∧ ∃ x ∈ c.contents, (lowerText x.1, x.2.1) = r.identity

/-- The resources of the catalog under construction. -/
def Env.contents (env : Env) : List (String × String × List (String × Value)) :=
  match env.catalog with
  | some c => c.contents
  | none => []

section Spec

variable (w) (events : List ExportEvent) (m type : String) (filter : Option Expr) (env : Env)

/-- A collector should add a resource: it is offered and satisfies the search expression. -/
def IsWanted (p : String × VirtualResource) : Prop :=
  IsOffered events m type p ∧ Satisfies w env filter p.2

/-- Something that a collector should add is declared already, or under one name with something
else that it should add. -/
def HasDuplicates : Prop :=
  (∃ p p', IsWanted w events m type filter env p ∧ IsWanted w events m type filter env p' ∧
      p ≠ p' ∧ p.2.identity = p'.2.identity) ∨
    ∃ p, IsWanted w events m type filter env p ∧ IsDeclared env p.2

/-- A collector adds exactly what it should, with the exported parameters; it runs the bodies of
defined types and reports duplicates. -/
structure CollectsExactly (env' : Env) : Prop where
  reported : HasDuplicates w events m type filter env → env.errorsCount < env'.errorsCount
  added : ¬ HasDuplicates w events m type filter env →
    ∃ ps : List (String × VirtualResource), ps.Nodup ∧
      (∀ p, p ∈ ps ↔ IsWanted w events m type filter env p) ∧
      ((∀ p ∈ ps, ¬ NamesDefine w env p.2) → env'.contents =
        env.contents ++ ps.map fun p ↦ (p.2.type, p.2.title, p.2.attrs)) ∧
      ((∃ p ∈ ps, NamesDefine w env p.2) → ∃ env₁,
        w.Returns (ps.forM fun p ↦ realizeCollected w p.2) env () env₁ ∧
          env'.contents = env₁.contents)

/-- The condition: no compile took over or left behind a row, and neither did the compile under
way; nothing that is offered is left out by the search expression, is of a defined type or is
declared already. -/
structure CollectsSafely (own : List VirtualResource) : Prop where
  settled : IsSettled events
  fits : ExportsFit events m own
  satisfied : ∀ p, IsOffered events m type p → Satisfies w env filter p.2
  plain : ∀ p, IsOffered events m type p → ¬ NamesDefine w env p.2
  fresh : ∀ p, IsOffered events m type p → ¬ IsDeclared env p.2

end Spec

/-- What PuppetDB answers during a compile: what the other nodes offer, and resources of the node
itself. -/
theorem exists_readExported {events : List ExportEvent} {own : List VirtualResource} (type : String)
    (hsettled : IsSettled events) (hfits : ExportsFit events m own) :
    ∃ ps : List (String × VirtualResource),
      readExported (((PuppetDb.afterEvents events).storeExports
        (own.map fun r ↦ (m, r))).queryExported type.toList) = ps.map collected ∧
      ps.Nodup ∧ (∀ p ∈ ps, lowerText p.2.type = lowerText type) ∧
      ∀ p, p ∈ ps ∧ p.1 ≠ m ↔ IsOffered events m type p := by
  have hrep := hsettled.represents.storeExports m hfits.distinct_names
  obtain ⟨ps, hrows, hnodup, hsound, hcomplete⟩ := hrep.exists_rows type
  have hexported : ∀ p ∈ ps, p.1 ≠ m → IsExported events p := fun p hp hother ↦
    ((hsound p hp).1.resolve_left fun h ↦ hother h.1).1
  have hactive {p : String × VirtualResource} (hp : IsExported events p) (hother : p.1 ≠ m) :
      ((PuppetDb.afterEvents events).storeExports (own.map fun r ↦ (m, r))).HasActive
        p.1.toList ↔ isActiveNode events p.1 = true :=
    (PuppetDb.hasActive_storeExports_iff fun heq ↦ hother (String.toList_inj.1 heq)).trans
      (IsSettled.hasActive_iff hp)
  refine ⟨ps, readExported_rows hrows fun p hp ↦ ?_, hnodup.of_map _,
    fun p hp ↦ (hsound p hp).2.2, fun p ↦ ⟨fun ⟨hp, hother⟩ ↦ ?_, fun h ↦ ?_⟩⟩
  · rcases (hsound p hp).1 with ⟨hm, hown⟩ | ⟨h, -⟩
    · exact ⟨hfits.exportable p.2 hown, hm ▸ hfits.certname⟩
    · exact hsettled.readable h
  · have hp' := hexported p hp hother
    exact ⟨hother, (hactive hp' hother).1 (hsound p hp).2.1, hp', (hsound p hp).2.2⟩
  · obtain ⟨p', hp', hnode, hnames⟩ := hcomplete p
      (.inr ⟨h.exported, hfits.names_ne h.exported h.other⟩)
      ((hactive h.exported h.other).2 h.active) h.type
    have hother' : p'.1 ≠ m := hnode ▸ h.other
    obtain rfl := hsettled.eq_of_identity_eq (hexported p' hp' hother') h.exported
      (VirtualResource.identity_eq hnames)
    exact ⟨hp', hother'⟩

theorem Env.BuildsFor.contents_eq (h : env.BuildsFor m c) : env.contents = c.contents := by
  rw [Env.contents, h.catalog]

/-- Safely collected resources have no duplicates. -/
theorem CollectsSafely.not_hasDuplicates {events : List ExportEvent} {type : String}
    {filter : Option Expr} {own : List VirtualResource}
    (h : CollectsSafely w events m type filter env own) :
    ¬ HasDuplicates w events m type filter env := by
  rintro (⟨p, p', hp, hp', hne, heq⟩ | ⟨p, hp, hdeclared⟩)
  · exact hne (h.settled.eq_of_identity_eq hp.1.exported hp'.1.exported heq)
  · exact h.fresh p hp.1 hdeclared

/-- The resources of other nodes in what is read. -/
theorem filter_collected (ps : List (String × VirtualResource)) :
    (ps.map collected).filter (fun r ↦ r.certname ≠ some m) =
      (ps.filter fun p ↦ p.1 ≠ m).map collected := by
  rw [List.filter_map]
  refine congrArg _ (List.filter_congr fun p _ ↦ ?_)
  simp [collected]

/-- After a history in which no row is taken over or left behind, a collector adds exactly what it
should, if the search expression leaves nothing out, no defined type is exported, and nothing that
is collected is declared already. -/
theorem collectsExactly_of_collectsSafely {w : World} {q : CatalogRequest}
    {events : List ExportEvent} {m type : String} {filter : Option Expr} {env env' : Env}
    {c : Catalog} {own : List VirtualResource} (hbuilds : env.BuildsFor m c)
    (hpuppetdb : env.puppetdb = true) (hexports : env.exports = own.map fun r ↦ (m, r))
    (hsafe : CollectsSafely (w.forRequest (some (PuppetDb.afterEvents events)) q) events m type
      filter env own)
    (hrun : (w.forRequest (some (PuppetDb.afterEvents events)) q).Returns
      (execCollector (w.forRequest (some (PuppetDb.afterEvents events)) q) .exported type filter)
      env () env') :
    CollectsExactly (w.forRequest (some (PuppetDb.afterEvents events)) q) events m type filter
      env env' := by
  refine ⟨fun h ↦ absurd h hsafe.not_hasDuplicates, fun _ ↦ ?_⟩
  obtain ⟨ps, hread, hnodup, htype, hps⟩ := exists_readExported type hsafe.settled hsafe.fits
  have hoffered {p : String × VirtualResource} :
      p ∈ ps.filter (fun p ↦ p.1 ≠ m) ↔ IsOffered events m type p := by
    rw [List.mem_filter, decide_eq_true_iff]
    exact hps p
  have hanswer : (w.forRequest (some (PuppetDb.afterEvents events)) q).puppetdbQuery env.exports
      type = ps.map collected := by
    rw [hexports]
    exact hread
  rw [returns_execCollector_iff hpuppetdb, hanswer] at hrun
  have hdistinct : ((ps.filter fun p ↦ p.1 ≠ m).map fun p ↦ p.2.identity).Nodup := by
    refine List.Nodup.map_on (fun p hp p' hp' heq ↦ ?_) (hnodup.filter _)
    exact hsafe.settled.eq_of_identity_eq (hoffered.1 hp).exported (hoffered.1 hp').exported heq
  have hfresh : ∀ r ∈ ps.map collected, r.certname ≠ some m →
      ∃ p, IsOffered events m type p ∧ r = collected p := by
    intro r hr hother
    obtain ⟨p, hp, rfl⟩ := List.mem_map.1 hr
    exact ⟨p, (hps p).1 ⟨hp, fun heq ↦ hother (congrArg some heq)⟩, rfl⟩
  have htypeR : ∀ r ∈ ps.map collected, lowerText r.type = lowerText type := by
    intro r hr
    obtain ⟨p, hp, rfl⟩ := List.mem_map.1 hr
    exact htype p hp
  have hdistinctR : (((ps.map collected).filter fun r ↦ r.certname ≠ some m).map fun r ↦
      (lowerText r.type, r.title)).Nodup := by
    rw [filter_collected, List.map_map]
    exact hdistinct
  have hmark : ∀ r ∈ ps.map collected, r.certname ≠ some m →
      resourceId r.type r.title ∉ env.marks .resourceCatalog := by
    intro r hr hother hmem
    obtain ⟨p, hp, rfl⟩ := hfresh r hr hother
    exact hsafe.fresh p hp (.inl hmem)
  have hnew : ∀ r ∈ ps.map collected, r.certname ≠ some m →
      ∀ x ∈ c.contents, (lowerText x.1, x.2.1) ≠ (lowerText r.type, r.title) := by
    intro r hr hother x hx heq
    obtain ⟨p, hp, rfl⟩ := hfresh r hr hother
    exact hsafe.fresh p hp (.inr ⟨c, hbuilds.catalog, x, hx, heq⟩)
  obtain ⟨c', hbuilds', hcontents⟩ :=
    contents_of_collectExported hbuilds htypeR hdistinctR hmark hnew hrun
  have hwanted (p : String × VirtualResource) : p ∈ ps.filter (fun p ↦ p.1 ≠ m) ↔
      IsWanted (w.forRequest (some (PuppetDb.afterEvents events)) q) events m type filter env p :=
    hoffered.trans ⟨fun h ↦ ⟨h, hsafe.satisfied p h⟩, fun h ↦ h.1⟩
  refine ⟨ps.filter fun p ↦ p.1 ≠ m, hnodup.filter _, hwanted, fun _ ↦ ?_, ?_⟩
  · rw [hbuilds.contents_eq, hbuilds'.contents_eq, hcontents, filter_collected, List.map_map]
    rfl
  · rintro ⟨p, hp, hdefine⟩
    exact absurd hdefine (hsafe.plain p (hoffered.1 hp))

/-! ### Two histories -/

/-- A resource without parameters. -/
def plainFile : VirtualResource := ⟨"file", "t", [], false⟩

/-- A node exports a resource. -/
def exportsOnce : List ExportEvent := [.compiled ⟨"a", [plainFile], some (none, [])⟩]

/-- A node exports a resource, and nothing when it is compiled again. -/
def exportsNoMore : List ExportEvent := .compiled ⟨"a", [], some (none, [])⟩ :: exportsOnce

/-- The world of a compile of node n after events. -/
def worldAfter (events : List ExportEvent) : World :=
  World.bare.forRequest (some (PuppetDb.afterEvents events)) ⟨"n".toList, none, none⟩

/-- The environment of a compile of node n after events. -/
def envAfter (events : List ExportEvent) : Env :=
  Env.forRequest (some (PuppetDb.afterEvents events)) ⟨"n".toList, none, none⟩

theorem buildsFor_envAfter (events : List ExportEvent) :
    (envAfter events).BuildsFor "n" ⟨"n", "production", [], [], []⟩ := ⟨rfl, rfl, rfl⟩

theorem isExported_once_iff {p : String × VirtualResource} :
    IsExported exportsOnce p ↔ p = ("a", plainFile) := by
  simp only [IsExported, exportsOnce, lastExports, Prod.ext_iff]
  split_ifs with hn
  · simp [hn]
  · simp [hn]

theorem isSettled_once : IsSettled exportsOnce := by
  have hnone (p : String × VirtualResource) : ¬ IsExported [] p := by simp [IsExported, lastExports]
  have hfits : ExportsFit [] "a" [plainFile] := by
    refine ⟨by simp [IsSplicedText, IsPlain], ?_, List.nodup_singleton _,
      fun p hp ↦ absurd hp (hnone p)⟩
    intro r hr
    obtain rfl := List.mem_singleton.1 hr
    exact ⟨by simp [IsSplicedText, IsPlain, plainFile], by simp [IsSplicedText, IsPlain, plainFile],
      List.nodup_nil, fun a ha ↦ absurd ha List.not_mem_nil, fun a ha ↦ absurd ha List.not_mem_nil⟩
  exact ⟨⟨hfits, fun r hr ↦ absurd hr (hnone ("a", r))⟩, trivial⟩

theorem not_namesDefine (events : List ExportEvent) :
    ¬ NamesDefine (worldAfter events) (envAfter events) plainFile := by
  rintro ⟨d, env₁, hrun⟩
  have hnone : (worldAfter events).ReturnsQuiet (findDefineAnywhere (worldAfter events) "file")
      (envAfter events) none (envAfter events) := ⟨4, rfl⟩
  have heq := (Prog.Returns.unique (worldAfter events).increasing_quiet hrun hnone).1
  cases heq

theorem collectsSafely_once : CollectsSafely (worldAfter exportsOnce) exportsOnce "n" "file" none
    (envAfter exportsOnce) [] where
  settled := isSettled_once
  fits :=
    ⟨by simp [IsSplicedText, IsPlain], fun r hr ↦ absurd hr List.not_mem_nil, List.nodup_nil,
      fun p _ _ r hr ↦ absurd hr List.not_mem_nil⟩
  satisfied p _ := ⟨_, 1, rfl⟩
  plain p hp := by
    rw [isExported_once_iff.1 hp.exported]
    exact not_namesDefine exportsOnce
  fresh p _ := by
    rintro (hmark | ⟨c, hc, x, hx, -⟩)
    · cases hmark
    · rw [(buildsFor_envAfter exportsOnce).catalog] at hc
      obtain rfl := Option.some.inj hc
      cases hx

theorem returns_once : ∃ env', (worldAfter exportsOnce).Returns
    (execCollector (worldAfter exportsOnce) .exported "file" none) (envAfter exportsOnce) ()
      env' := by
  obtain ⟨_, env', hrun, -⟩ := exists_ok_of_observed
    (x := (execCollector (worldAfter exportsOnce) .exported "file" none).run
      ((worldAfter exportsOnce).handler 4) (envAfter exportsOnce))
    (f := fun env ↦ env.errorsCount) (c := 0) (by decide +kernel)
  exact ⟨env', 4, hrun⟩

theorem returns_noMore : ∃ env', (worldAfter exportsNoMore).Returns
    (execCollector (worldAfter exportsNoMore) .exported "file" none) (envAfter exportsNoMore) ()
      env' ∧ env'.contents.length = 1 := by
  obtain ⟨_, env', hrun, hcontents⟩ := exists_ok_of_observed
    (x := (execCollector (worldAfter exportsNoMore) .exported "file" none).run
      ((worldAfter exportsNoMore).handler 4) (envAfter exportsNoMore))
    (f := fun env ↦ env.contents.length) (c := 1) (by decide +kernel)
  exact ⟨env', ⟨4, hrun⟩, hcontents⟩

/-- What a node exported is collected. -/
theorem collectsExactly_once : ∃ env', CollectsExactly (worldAfter exportsOnce) exportsOnce "n"
    "file" none (envAfter exportsOnce) env' :=
  returns_once.imp fun _ hrun ↦
    collectsExactly_of_collectsSafely (buildsFor_envAfter exportsOnce) rfl rfl
      collectsSafely_once hrun

/-- What a node exported is collected also when the node does not export it any more. -/
theorem not_collectsExactly_noMore : ∃ env',
    (worldAfter exportsNoMore).Returns
      (execCollector (worldAfter exportsNoMore) .exported "file" none) (envAfter exportsNoMore) ()
      env' ∧
    ¬ CollectsExactly (worldAfter exportsNoMore) exportsNoMore "n" "file" none
      (envAfter exportsNoMore) env' := by
  obtain ⟨env', hrun, hlength⟩ := returns_noMore
  refine ⟨env', hrun, fun h ↦ ?_⟩
  have hnone (p : String × VirtualResource) : ¬ IsExported exportsNoMore p := by
    simp only [IsExported, exportsNoMore, exportsOnce, lastExports]
    split_ifs <;> simp
  have hwanted (p : String × VirtualResource) : ¬ IsWanted (worldAfter exportsNoMore)
      exportsNoMore "n" "file" none (envAfter exportsNoMore) p :=
    fun hp ↦ hnone p hp.1.exported
  obtain ⟨ps, -, hps, hcontents, -⟩ := h.added (by
    rintro (⟨p, p', hp, -⟩ | ⟨p, hp, -⟩)
    · exact hwanted p hp
    · exact hwanted p hp)
  obtain rfl := List.eq_nil_iff_forall_not_mem.2 fun p hp ↦ hwanted p ((hps p).1 hp)
  rw [hcontents (by simp), (buildsFor_envAfter exportsNoMore).contents_eq] at hlength
  cases hlength

end PuppetC
