import PuppetC.Value

/-!
# The catalog

The resources, classes and edges of a compiled node (`puppet_catalog.c`). Resources are found by
their type, compared without case, and their title. File and line of a resource are left out.

## Main definitions

* `Catalog`, `CatalogResource`: `puppet_catalog_t`, `puppet_catalog_resource_t`.
* `Catalog.addResource`, `Catalog.updateResource`, `Catalog.addResourceTags`,
  `Catalog.overrideResource`, `Catalog.addClass`, `Catalog.addEdge`: what a compile does to it.

## Main results

* `Catalog.NoDuplicates.addResource`, `Catalog.NoDuplicates.changeFound`: no two resources have
  one type and title; the operations keep it so.
-/

namespace PuppetC

/-- `puppet_catalog_resource_t`. -/
structure CatalogResource where
  type : String
  title : String
  parameters : List (String × Value)
  tags : List String
  exported : Bool
  deriving DecidableEq

/-- `puppet_relationship_t`. -/
inductive Relationship where
  | before | require | notify | subscribe
  deriving DecidableEq

/-- `puppet_catalog_edge_t`. -/
structure CatalogEdge where
  sourceType : String
  sourceTitle : String
  targetType : String
  targetTitle : String
  relationship : Relationship
  deriving DecidableEq

/-- `puppet_catalog_t`. -/
structure Catalog where
  certname : String
  environment : String
  resources : List CatalogResource
  edges : List CatalogEdge
  classes : List String
  deriving DecidableEq

/-- The test of `puppet_catalog_find_resource`. -/
def CatalogResource.isNamed (r : CatalogResource) (type title : String) : Bool :=
  lowerText r.type == lowerText type && r.title == title

namespace Catalog

/-- `puppet_catalog_create`. -/
def create (certname environment : Option String) : Catalog where
  certname := certname.getD "localhost"
  environment := environment.getD "production"
  resources := []
  edges := []
  classes := []

/-- `puppet_catalog_find_resource`. -/
def findResource (c : Catalog) (type title : String) : Option CatalogResource :=
  c.resources.find? (·.isNamed type title)

/-- `puppet_catalog_add_resource`, or `none` where it refuses a duplicate. -/
def addResource (c : Catalog) (type title : String) (params : List (String × Value)) :
    Option Catalog :=
  match c.findResource type title with
  | some _ => none
  | none => some { c with resources := c.resources ++ [⟨type, title, params, [], false⟩] }

/-- Change the first resource of a type and title. -/
def changeResource (type title : String) (f : CatalogResource → CatalogResource) :
    List CatalogResource → List CatalogResource
  | [] => []
  | r :: rs =>
    if r.isNamed type title then f r :: rs else r :: changeResource type title f rs

/-- Change the resource that `puppet_catalog_find_resource` finds. -/
def changeFound (c : Catalog) (type title : String) (f : CatalogResource → CatalogResource) :
    Catalog :=
  { c with resources := changeResource type title f c.resources }

/-- `puppet_catalog_update_resource`. -/
def updateResource (c : Catalog) (type title : String) (params : List (String × Value)) :
    Catalog :=
  c.changeFound type title fun r ↦ { r with parameters := params }

/-- Mark a resource as exported. -/
def exportResource (c : Catalog) (type title : String) : Catalog :=
  c.changeFound type title fun r ↦ { r with exported := true }

/-- Tags with those of a list that are new. -/
def addNewTags (tags : List String) : List String → List String
  | [] => tags
  | t :: ts => addNewTags (if tags.contains t then tags else tags ++ [t]) ts

/-- `puppet_catalog_add_resource_tags`. -/
def addResourceTags (c : Catalog) (type title : String) (tags : List String) : Catalog :=
  c.changeFound type title fun r ↦ { r with tags := addNewTags r.tags tags }

/-- Replace the value of a parameter, or add it at the end. -/
def overrideParam (name : String) (value : Value) :
    List (String × Value) → List (String × Value)
  | [] => [(name, value)]
  | (n, v) :: ps => if n = name then (n, value) :: ps else (n, v) :: overrideParam name value ps

/-- Override one parameter of a resource. -/
def overrideResource (c : Catalog) (type title name : String) (value : Value) : Catalog :=
  c.changeFound type title fun r ↦ { r with parameters := overrideParam name value r.parameters }

/-- `puppet_catalog_add_class`. -/
def addClass (c : Catalog) (name : String) : Catalog :=
  if c.classes.contains name then c else { c with classes := c.classes ++ [name] }

/-- `puppet_catalog_add_edge`. -/
def addEdge (c : Catalog) (e : CatalogEdge) : Catalog := { c with edges := c.edges ++ [e] }

/-! ### Identity of resources -/

/-- No two resources have one type, without case, and one title. -/
def NoDuplicates (c : Catalog) : Prop :=
  c.resources.Pairwise fun r r' ↦ ¬ (lowerText r.type = lowerText r'.type ∧ r.title = r'.title)

theorem findResource_eq_none_iff {c : Catalog} {type title : String} :
    c.findResource type title = none ↔
      ∀ r ∈ c.resources, ¬ (lowerText r.type = lowerText type ∧ r.title = title) := by
  simp [findResource, CatalogResource.isNamed]

theorem NoDuplicates.addResource {c c' : Catalog} {type title : String}
    {params : List (String × Value)} (hc : c.NoDuplicates)
    (h : c.addResource type title params = some c') : c'.NoDuplicates := by
  cases hf : c.findResource type title with
  | some r => simp [Catalog.addResource, hf] at h
  | none =>
    obtain rfl : _ = c' := by simpa [Catalog.addResource, hf] using h
    refine List.pairwise_append.2 ⟨hc, List.pairwise_singleton .., fun r hr r' hr' ↦ ?_⟩
    obtain rfl := List.mem_singleton.1 hr'
    exact findResource_eq_none_iff.1 hf r hr

/-- Changing a resource but not its type and title makes no duplicates. -/
theorem NoDuplicates.changeFound {c : Catalog} {type title : String}
    {f : CatalogResource → CatalogResource}
    (hf : ∀ r, (f r).type = r.type ∧ (f r).title = r.title) (hc : c.NoDuplicates) :
    (c.changeFound type title f).NoDuplicates := by
  have hnames : ∀ rs : List CatalogResource,
      (changeResource type title f rs).map (fun r ↦ (r.type, r.title)) =
        rs.map fun r ↦ (r.type, r.title) := by
    intro rs
    induction rs with
    | nil => rfl
    | cons r rs ih =>
      rw [changeResource]
      split_ifs
      · simp [hf r]
      · simp [ih]
  have key : ∀ rs : List CatalogResource,
      (rs.Pairwise fun r r' ↦ ¬ (lowerText r.type = lowerText r'.type ∧ r.title = r'.title)) ↔
      (rs.map fun r ↦ (r.type, r.title)).Pairwise
        fun p p' ↦ ¬ (lowerText p.1 = lowerText p'.1 ∧ p.2 = p'.2) := by
    intro rs
    rw [List.pairwise_map]
  exact (key _).2 (hnames c.resources ▸ (key _).1 hc)

end Catalog

end PuppetC
