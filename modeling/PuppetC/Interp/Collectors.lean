import PuppetC.Interp.Runs
import PuppetC.Support.Contract

/-!
# Collectors and their queries

A collector of virtual resources asks its query of each resource of its type: comparisons of an
attribute with a value, joined by `and` and `or`. Every comparison is made with the parameter of
that name, `title` and `tag` as well, though these stand for the title and the tags. A collector of
exported resources does not ask its query; without PuppetDB it looks at virtual resources.

## Main definitions

* `QueryOver`: queries made of given comparisons.
* `World.QueryGives`: the answer of a query, from the truth of its comparisons.
* `paramHolds`, `VirtualResource.truth`: equality with a parameter; with what an attribute is.
* `ComparedRightly`: the condition on a comparison.
* `declareCollected`: what a collector does with a resource that it takes.

## Main results

* `returnsQuiet_collects_iff`: the answer of `collector_matches_filter`.
* `marked_of_execCollector`: an exported resource is declared whatever the query.
* `collector_query_exact_iff`: when collectors select by their query.
-/

namespace PuppetC

/-! ### Queries -/

/-- The attribute on the left of a comparison. -/
def attributeName : Expr → Option String
  | .variable name | .value (.string name) => some name
  | _ => none

/-- The queries that are made of the given comparisons of an attribute with an expression. -/
inductive QueryOver (S : Set (String × Expr)) : Expr → Prop
  | compare {op : BinOp} {left right : Expr} {name : String} (hop : op = .eq ∨ op = .ne)
      (hname : attributeName left = some name) (h : (name, right) ∈ S) :
      QueryOver S (.binop op left right)
  | and {left right : Expr} (hleft : QueryOver S left) (hright : QueryOver S right) :
      QueryOver S (.binop .and left right)
  | or {left right : Expr} (hleft : QueryOver S left) (hright : QueryOver S right) :
      QueryOver S (.binop .or left right)

/-- The answer of a query, where `holds` says whether an attribute equals a value. The operand on
the right is left out if the one on the left decides. -/
inductive World.QueryGives (w : World) (holds : String → Value → Bool) :
    Expr → Env → Bool → Env → Prop
  | eq {left right : Expr} {name : String} {env env' : Env} {v : Value}
      (hname : attributeName left = some name)
      (hright : w.ReturnsQuiet (PuppetC.evalExpr right) env v env') :
      QueryGives w holds (.binop .eq left right) env (holds name v) env'
  | ne {left right : Expr} {name : String} {env env' : Env} {v : Value}
      (hname : attributeName left = some name)
      (hright : w.ReturnsQuiet (PuppetC.evalExpr right) env v env') :
      QueryGives w holds (.binop .ne left right) env (!holds name v) env'
  | andFalse {left right : Expr} {env env' : Env} (hleft : QueryGives w holds left env false env') :
      QueryGives w holds (.binop .and left right) env false env'
  | andTrue {left right : Expr} {b : Bool} {env env₁ env' : Env}
      (hleft : QueryGives w holds left env true env₁)
      (hright : QueryGives w holds right env₁ b env') :
      QueryGives w holds (.binop .and left right) env b env'
  | orTrue {left right : Expr} {env env' : Env} (hleft : QueryGives w holds left env true env') :
      QueryGives w holds (.binop .or left right) env true env'
  | orFalse {left right : Expr} {b : Bool} {env env₁ env' : Env}
      (hleft : QueryGives w holds left env false env₁)
      (hright : QueryGives w holds right env₁ b env') :
      QueryGives w holds (.binop .or left right) env b env'

/-- A parameter equals a value, or holds it in an array. -/
def paramHolds (attrs : List (String × Value)) (name : String) (v : Value) : Bool :=
  match attrs.lookup name with
  | some actual => attributeEquals actual v
  | none => false

/-- What a comparison of an attribute means: `title` is the title of the resource, `tag` one of its
tags. -/
def VirtualResource.truth (r : VirtualResource) (tags : List String) (name : String) (v : Value) :
    Bool :=
  if name = "title" then valuesEqual (.string r.title) v
  else if name = "tag" then tags.any fun t ↦ valuesEqual (.string t) v
  else paramHolds r.attrs name v

/-- A comparison is one with a parameter, unless it is with the title or the tags, and the parameter
called so does not compare alike. -/
def ComparedRightly (r : VirtualResource) (tags : List String) (name : String) (v : Value) : Prop :=
  (name = "title" → paramHolds r.attrs name v = valuesEqual (.string r.title) v) ∧
    (name = "tag" → paramHolds r.attrs name v = tags.any fun t ↦ valuesEqual (.string t) v)

theorem comparedRightly_iff {r : VirtualResource} {tags : List String} {name : String} {v : Value} :
    ComparedRightly r tags name v ↔ paramHolds r.attrs name v = r.truth tags name v := by
  rw [ComparedRightly, VirtualResource.truth]
  by_cases htitle : name = "title"
  · simp [htitle]
  · by_cases htag : name = "tag"
    · simp [htag]
    · simp [htitle, htag]

section World

variable {w : World} {S : Set (String × Expr)} {f left right : Expr} {r : VirtualResource}
  {b : Bool} {env env' : Env} {holds : String → Value → Bool}

/-! ### The answer of the filter -/

theorem returnsQuiet_matchesFilter_iff :
    w.ReturnsQuiet (call (.matchesFilter f r)) env b env' ↔
      w.ReturnsQuiet (matchesFilterBody f r) env b env' := by
  rw [returnsQuiet_call_iff]
  exact returns_lift_iff

theorem returnsQuiet_matchesFilter_and_iff :
    w.ReturnsQuiet (call (.matchesFilter (.binop .and left right) r)) env b env' ↔
      (∃ env₁, w.ReturnsQuiet (call (.matchesFilter left r)) env true env₁ ∧
        w.ReturnsQuiet (call (.matchesFilter right r)) env₁ b env') ∨
      w.ReturnsQuiet (call (.matchesFilter left r)) env false env' ∧ b = false := by
  rw [returnsQuiet_matchesFilter_iff]
  change w.ReturnsQuiet (call (.matchesFilter left r) >>= fun a ↦
    if a then call (.matchesFilter right r) else return false) env b env' ↔ _
  rw [returnsQuiet_bind_iff, Bool.exists_bool]
  simp only [Bool.false_eq_true, if_false, if_true, Prog.returns_pure_iff]
  constructor
  · rintro (⟨env₁, hleft, rfl, rfl⟩ | h)
    exacts [.inr ⟨hleft, rfl⟩, .inl h]
  · rintro (h | ⟨hleft, rfl⟩)
    exacts [.inr h, .inl ⟨env', hleft, rfl, rfl⟩]

theorem returnsQuiet_matchesFilter_or_iff :
    w.ReturnsQuiet (call (.matchesFilter (.binop .or left right) r)) env b env' ↔
      (∃ env₁, w.ReturnsQuiet (call (.matchesFilter left r)) env false env₁ ∧
        w.ReturnsQuiet (call (.matchesFilter right r)) env₁ b env') ∨
      w.ReturnsQuiet (call (.matchesFilter left r)) env true env' ∧ b = true := by
  rw [returnsQuiet_matchesFilter_iff]
  change w.ReturnsQuiet (call (.matchesFilter left r) >>= fun a ↦
    if a then return true else call (.matchesFilter right r)) env b env' ↔ _
  rw [returnsQuiet_bind_iff, Bool.exists_bool]
  simp only [Bool.false_eq_true, if_false, if_true, Prog.returns_pure_iff]
  constructor
  · rintro (h | ⟨env₁, hleft, rfl, rfl⟩)
    exacts [.inl h, .inr ⟨hleft, rfl⟩]
  · rintro (h | ⟨hleft, rfl⟩)
    exacts [.inl h, .inr ⟨env', hleft, rfl, rfl⟩]

/-- A comparison is made with the parameter of its name. -/
theorem returnsQuiet_matchesFilter_compare_iff {op : BinOp} {name : String}
    (hop : op = .eq ∨ op = .ne) (hname : attributeName left = some name) :
    w.ReturnsQuiet (call (.matchesFilter (.binop op left right) r)) env b env' ↔
      ∃ v, w.ReturnsQuiet (evalExpr right) env v env' ∧
        b = (paramHolds r.attrs name v == (op == .eq)) := by
  have hbody : matchesFilterBody (.binop op left right) r = (do
      let expected ← evalExpr right
      return paramHolds r.attrs name expected == (op == .eq)) := by
    have hanswer : (fun expected ↦ match r.attrs.lookup name with
        | some actual => return attributeEquals actual expected == (op == .eq)
        | none => return op == .ne : Value → Quiet Bool) =
        fun expected ↦ return paramHolds r.attrs name expected == (op == .eq) := by
      funext expected
      rw [paramHolds]
      cases r.attrs.lookup name with
      | some actual => rfl
      | none => rcases hop with rfl | rfl <;> rfl
    rw [← hanswer]
    cases left with
    | «variable» name' =>
      obtain rfl := Option.some.inj hname
      rcases hop with rfl | rfl <;> rfl
    | value u =>
      cases u with
      | string name' =>
        obtain rfl := Option.some.inj hname
        rcases hop with rfl | rfl <;> rfl
      | undef | bool | number | array | hash | regexp | deferred => cases hname
    | _ => cases hname
  rw [returnsQuiet_matchesFilter_iff, hbody, returnsQuiet_bind_iff]
  constructor
  · rintro ⟨v, env₁, hright, hret⟩
    obtain ⟨rfl, rfl⟩ := Prog.returns_pure_iff.1 hret
    exact ⟨v, hright, rfl⟩
  · rintro ⟨v, hright, rfl⟩
    exact ⟨v, env', hright, Prog.returns_pure_iff.2 ⟨rfl, rfl⟩⟩

/-! ### The answer that a query gives -/

theorem queryGives_compare_iff {op : BinOp} {name : String} (hop : op = .eq ∨ op = .ne)
    (hname : attributeName left = some name) :
    w.QueryGives holds (.binop op left right) env b env' ↔
      ∃ v, w.ReturnsQuiet (evalExpr right) env v env' ∧ b = (holds name v == (op == .eq)) := by
  have heq (x : Bool) : (x == (BinOp.eq == BinOp.eq)) = x := by cases x <;> rfl
  have hne (x : Bool) : (x == (BinOp.ne == BinOp.eq)) = !x := by cases x <;> rfl
  constructor
  · intro h
    cases h with
    | eq hname' hright =>
      obtain rfl := Option.some.inj (hname.symm.trans hname')
      exact ⟨_, hright, (heq _).symm⟩
    | ne hname' hright =>
      obtain rfl := Option.some.inj (hname.symm.trans hname')
      exact ⟨_, hright, (hne _).symm⟩
    | andFalse | andTrue | orTrue | orFalse => simp at hop
  · rintro ⟨v, hright, rfl⟩
    rcases hop with rfl | rfl
    · rw [heq]
      exact .eq hname hright
    · rw [hne]
      exact .ne hname hright

theorem queryGives_and_iff :
    w.QueryGives holds (.binop .and left right) env b env' ↔
      (∃ env₁, w.QueryGives holds left env true env₁ ∧ w.QueryGives holds right env₁ b env') ∨
      w.QueryGives holds left env false env' ∧ b = false := by
  constructor
  · intro h
    cases h with
    | andFalse hleft => exact .inr ⟨hleft, rfl⟩
    | andTrue hleft hright => exact .inl ⟨_, hleft, hright⟩
  · rintro (⟨env₁, hleft, hright⟩ | ⟨hleft, rfl⟩)
    exacts [.andTrue hleft hright, .andFalse hleft]

theorem queryGives_or_iff :
    w.QueryGives holds (.binop .or left right) env b env' ↔
      (∃ env₁, w.QueryGives holds left env false env₁ ∧ w.QueryGives holds right env₁ b env') ∨
      w.QueryGives holds left env true env' ∧ b = true := by
  constructor
  · intro h
    cases h with
    | orTrue hleft => exact .inr ⟨hleft, rfl⟩
    | orFalse hleft hright => exact .inl ⟨_, hleft, hright⟩
  · rintro (⟨env₁, hleft, hright⟩ | ⟨hleft, rfl⟩)
    exacts [.orFalse hleft hright, .orTrue hleft]

/-- The filter answers a query as if all attributes were parameters. -/
theorem returnsQuiet_collects_iff (hf : QueryOver S f) :
    w.ReturnsQuiet (collects (some f) r) env b env' ↔
      w.QueryGives (paramHolds r.attrs) f env b env' := by
  change w.ReturnsQuiet (call (.matchesFilter f r)) env b env' ↔ _
  induction hf generalizing env b env' with
  | compare hop hname _ =>
    rw [returnsQuiet_matchesFilter_compare_iff hop hname, queryGives_compare_iff hop hname]
  | and _ _ ihleft ihright =>
    simp only [returnsQuiet_matchesFilter_and_iff, queryGives_and_iff, ihleft, ihright]
  | or _ _ ihleft ihright =>
    simp only [returnsQuiet_matchesFilter_or_iff, queryGives_or_iff, ihleft, ihright]

/-- Two meanings of comparisons give queries the same answers if they are the same for all values
that the comparisons are made with. -/
theorem queryGives_congr {holds' : String → Value → Bool} (hf : QueryOver S f)
    (h : ∀ name right, (name, right) ∈ S → ∀ env v env',
      w.ReturnsQuiet (evalExpr right) env v env' → holds name v = holds' name v) :
    w.QueryGives holds f env b env' ↔ w.QueryGives holds' f env b env' := by
  induction hf generalizing env b env' with
  | compare hop hname hmem =>
    rw [queryGives_compare_iff hop hname, queryGives_compare_iff hop hname]
    refine exists_congr fun v ↦ and_congr_right fun hright ↦ ?_
    rw [h _ _ hmem _ _ _ hright]
  | and _ _ ihleft ihright => simp only [queryGives_and_iff, ihleft, ihright]
  | or _ _ ihleft ihright => simp only [queryGives_or_iff, ihleft, ihright]

/-! ### Virtual resources -/

variable (w) in
/-- What a collector does with a resource that it takes. -/
def declareCollected (key : String) (r : VirtualResource) : Comp Unit := do
  let id := resourceId r.type r.title
  if ← perform (.isMarked .resourceCatalog id) then
    emit .note ("Collector: Resource " ++ id ++ " already declared")
  else
    perform (.mark .resourceCatalog id)
    realizeCollected w r
    setRealized key

/-- A collector takes the resources that its filter selects. -/
theorem returns_collectOne_iff {key typePrefix : String} {filter : Option Expr}
    (hkey : startsWith key typePrefix = true)
    (hstored : (env.stored .virtualResources).get key = some r) (hnew : r.realized = false) :
    w.Returns (collectOne w typePrefix filter key) env () env' ↔
      ∃ b env₁, w.ReturnsQuiet (collects filter r) env b env₁ ∧
        w.Returns (if b then declareCollected w key r else return ()) env₁ () env' := by
  have hget (a : Option VirtualResource) (env₁ : Env) :
      w.Returns (perform (.getStored .virtualResources key) : Quiet _) env a env₁ ↔
        a = some r ∧ env₁ = env := by
    rw [returns_lift_iff, returnsQuiet_perform_iff]
    change Except.ok ((env.stored .virtualResources).get key, env) = _ ↔ _
    rw [hstored, Except.ok.injEq, Prod.mk.injEq]
    exact and_congr eq_comm eq_comm
  have hrest : w.Returns (collectOne w typePrefix filter key) env () env' ↔
      w.Returns ((collects filter r : Comp Bool) >>= fun b ↦
        if b then declareCollected w key r else return ()) env () env' := by
    rw [collectOne, if_pos hkey, returns_bind_iff]
    simp only [hget, exists_eq_left, and_assoc, exists_and_left]
    simp only [hnew, Bool.false_eq_true, if_false]
    exact Iff.rfl
  rw [hrest, returns_bind_iff]
  simp only [returns_lift_iff]

/-! ### Exported resources -/

/-- What is declared stays so, and the catalog is that of the same node. -/
def Env.KeepsDeclared (env env' : Env) : Prop :=
  (∀ id ∈ env.marks .resourceCatalog, id ∈ env'.marks .resourceCatalog) ∧
    env'.catalog.map (·.certname) = env.catalog.map (·.certname)

instance : IsPreorder Env Env.KeepsDeclared where
  refl _ := ⟨fun _ hid ↦ hid, rfl⟩
  trans _ _ _ h h' := ⟨fun id hid ↦ h'.1 id (h.1 id hid), h'.2.trans h.2⟩

/-- A resource that the node of the catalog exported itself. -/
def Env.IsOwnExport (env : Env) (r : ExportedResource) : Prop :=
  ∃ certname, r.certname = some certname ∧ env.catalog.map (·.certname) = some certname

theorem Env.KeepsDeclared.isOwnExport_iff (h : env.KeepsDeclared env') {r : ExportedResource} :
    env'.IsOwnExport r ↔ env.IsOwnExport r := by
  rw [IsOwnExport, IsOwnExport, h.2]

namespace Env.KeepsDeclared

theorem read {α : Type} (f : EnvField α) :
    (PuppetC.read f).Within w.quietHandler Env.KeepsDeclared := by
  intro env a env' h
  obtain ⟨-, rfl⟩ := returnsQuiet_read_iff.1 h
  exact refl_of _ _

theorem isMarked (t : MarkTable) (key : String) :
    (perform (.isMarked t key)).Within w.quietHandler Env.KeepsDeclared := by
  intro env a env' h
  obtain ⟨-, rfl⟩ := Prod.mk.inj (Except.ok.inj (returnsQuiet_perform_iff.1 h))
  exact refl_of _ _

theorem mark (key : String) :
    (perform (.mark .resourceCatalog key)).Within w.quietHandler Env.KeepsDeclared := by
  intro env a env' h
  obtain ⟨-, rfl⟩ := Prod.mk.inj (Except.ok.inj (returnsQuiet_perform_iff.1 h))
  exact ⟨fun id hid ↦ Env.mem_marks_mark.2 (.inr hid), rfl⟩

theorem addResource (type title : String) (params : List (String × Value)) :
    (perform (.addResource type title params)).Within w.quietHandler Env.KeepsDeclared := by
  intro env a env' h
  replace h := returnsQuiet_perform_iff.1 h
  rw [EnvPrim.handle] at h
  cases hadd : env.catalog.bind (·.addResource type title params) with
  | none =>
    rw [hadd] at h
    obtain ⟨-, rfl⟩ := Prod.mk.inj (Except.ok.inj h)
    exact refl_of _ _
  | some c =>
    rw [hadd] at h
    obtain ⟨-, rfl⟩ := Prod.mk.inj (Except.ok.inj h)
    obtain ⟨c', hc', hadd⟩ := Option.bind_eq_some_iff.1 hadd
    refine ⟨fun id hid ↦ hid, ?_⟩
    rw [hc']
    unfold Catalog.addResource at hadd
    cases hfind : c'.findResource type title with
    | some found => simp [hfind] at hadd
    | none =>
      rw [hfind] at hadd
      obtain rfl := Option.some.inj hadd
      rfl

theorem changeCatalog {f : Catalog → Catalog} (hf : ∀ c, (f c).certname = c.certname) :
    (perform (.changeCatalog f)).Within w.quietHandler Env.KeepsDeclared := by
  intro env a env' h
  obtain ⟨-, rfl⟩ := Prod.mk.inj (Except.ok.inj (returnsQuiet_perform_iff.1 h))
  refine ⟨fun id hid ↦ hid, ?_⟩
  change (env.catalog.map f).map _ = _
  rw [Option.map_map]
  exact congrArg (fun g ↦ env.catalog.map g) (funext hf)

theorem applyCurrentTags (type title : String) :
    (PuppetC.applyCurrentTags type title).Within w.quietHandler Env.KeepsDeclared := by
  refine .bind w.increasing_quiet (read _) fun tags ↦ ?_
  cases tags with
  | none => exact .pure _
  | some tags => exact changeCatalog fun c ↦ rfl

end Env.KeepsDeclared

/-- What a collector does with an exported resource that is not declared. -/
def addExported (r : ExportedResource) : Quiet Unit := do
  if ← read .building then
    if ← perform (.addResource r.type r.title r.parameters) then
      perform (.changeCatalog (·.exportResource r.type r.title))
      applyCurrentTags r.type r.title

theorem Env.KeepsDeclared.addExported (r : ExportedResource) :
    (PuppetC.addExported r).Within w.quietHandler Env.KeepsDeclared := by
  refine .bind w.increasing_quiet (read _) fun building ↦ ?_
  split_ifs
  · refine .bind w.increasing_quiet (addResource _ _ _) fun added ↦ ?_
    split_ifs
    · exact .bind w.increasing_quiet (changeCatalog fun c ↦ rfl) fun _ ↦ applyCurrentTags _ _
    · exact .pure _
  · exact .pure _

/-- The first test of `collectExported`: the catalog is that of the node of the export. -/
def exportedBy (certname : Option String) (catalog : Option Catalog) : Bool :=
  match certname, catalog with
  | some certname, some c => c.certname == certname
  | _, _ => false

theorem returnsQuiet_collectExported_iff {r : ExportedResource} :
    w.ReturnsQuiet (collectExported r) env () env' ↔
      (env.IsOwnExport r ∨ resourceId r.type r.title ∈ env.marks .resourceCatalog) ∧ env' = env ∨
      ¬ env.IsOwnExport r ∧ resourceId r.type r.title ∉ env.marks .resourceCatalog ∧
        w.ReturnsQuiet (addExported r) (env.mark .resourceCatalog (resourceId r.type r.title)) ()
          env' := by
  have hown : exportedBy r.certname env.catalog = true ↔ env.IsOwnExport r := by
    rw [Env.IsOwnExport]
    cases r.certname <;> cases env.catalog <;> simp [exportedBy]
  have hmarked (b : Bool) (env₁ : Env) :
      w.ReturnsQuiet (perform (.isMarked .resourceCatalog (resourceId r.type r.title))) env b env₁ ↔
        b = (env.marks .resourceCatalog).contains (resourceId r.type r.title) ∧ env₁ = env := by
    rw [returnsQuiet_perform_iff, EnvPrim.handle, Except.ok.injEq, Prod.mk.injEq]
    exact and_congr eq_comm eq_comm
  have hmark (u : Unit) (env₁ : Env) :
      w.ReturnsQuiet (perform (.mark .resourceCatalog (resourceId r.type r.title))) env u env₁ ↔
        env₁ = env.mark .resourceCatalog (resourceId r.type r.title) := by
    rw [returnsQuiet_perform_iff, EnvPrim.handle, Except.ok.injEq, Prod.mk.injEq]
    exact ⟨fun h ↦ h.2.symm, fun h ↦ ⟨rfl, h.symm⟩⟩
  change w.ReturnsQuiet (read .catalog >>= fun catalog ↦
    if exportedBy r.certname catalog = true then pure ()
    else perform (.isMarked .resourceCatalog (resourceId r.type r.title)) >>= fun b ↦
      if b then pure ()
      else perform (.mark .resourceCatalog (resourceId r.type r.title)) >>= fun _ ↦
        addExported r) env () env' ↔ _
  rw [returnsQuiet_bind_iff]
  simp only [returnsQuiet_read_iff, and_assoc, exists_and_left, exists_eq_left, EnvField.get]
  by_cases hown' : env.IsOwnExport r
  · rw [if_pos (hown.2 hown')]
    refine Prog.returns_pure_iff.trans ?_
    simp [hown']
  · rw [if_neg (hown'.comp hown.1), returnsQuiet_bind_iff]
    simp only [hmarked, and_assoc, exists_and_left, exists_eq_left]
    by_cases hid : resourceId r.type r.title ∈ env.marks .resourceCatalog
    · rw [if_pos (List.contains_iff_mem.2 hid)]
      refine Prog.returns_pure_iff.trans ?_
      simp [hown', hid]
    · rw [if_neg (hid.comp List.contains_iff_mem.1), returnsQuiet_bind_iff]
      simp only [hmark, exists_eq_left, exists_const]
      simp [hown', hid]

/-- A collector of exported resources declares all that it finds, or finds it declared. -/
theorem marked_of_collectExported {r : ExportedResource}
    (h : w.ReturnsQuiet (collectExported r) env () env') :
    env.KeepsDeclared env' ∧
      (¬ env.IsOwnExport r → resourceId r.type r.title ∈ env'.marks .resourceCatalog) := by
  obtain ⟨hskip, rfl⟩ | ⟨hother, hnew, hadd⟩ := returnsQuiet_collectExported_iff.1 h
  · exact ⟨refl_of _ _, fun hother ↦ hskip.resolve_left hother⟩
  · have hmark : env.KeepsDeclared (env.mark .resourceCatalog (resourceId r.type r.title)) :=
      ⟨fun id hid ↦ Env.mem_marks_mark.2 (.inr hid), rfl⟩
    have hrest := Env.KeepsDeclared.addExported r _ _ _ hadd
    exact ⟨trans_of _ hmark hrest, fun _ ↦ hrest.1 _ (Env.mem_marks_mark.2 (.inl rfl))⟩

theorem marked_of_forM_collectExported {rs : List ExportedResource}
    (h : w.ReturnsQuiet (rs.forM collectExported) env () env') {r : ExportedResource} (hr : r ∈ rs)
    (hother : ¬ env.IsOwnExport r) :
    resourceId r.type r.title ∈ env'.marks .resourceCatalog := by
  induction rs generalizing env with
  | nil => cases hr
  | cons r' rs ih =>
    obtain ⟨env₁, hfirst, hrest⟩ := returnsQuiet_forM_cons_iff.1 h
    obtain ⟨hkeeps, hmarked⟩ := marked_of_collectExported hfirst
    rcases List.mem_cons.1 hr with rfl | hr
    · have hwithin : (rs.forM collectExported).Within w.quietHandler Env.KeepsDeclared :=
        .forM w.increasing_quiet fun r _ env _ env' h ↦ (marked_of_collectExported h).1
      exact (hwithin _ _ _ hrest).1 _ (hmarked hother)
    · exact ih hrest hr (hkeeps.isOwnExport_iff.not.2 hother)

/-- A collector that PuppetDB answers adds what it reads. -/
theorem returns_execCollector_iff {type : String} {filter : Option Expr}
    (hpuppetdb : env.puppetdb = true) :
    w.Returns (execCollector w .exported type filter) env () env' ↔
      w.ReturnsQuiet ((w.puppetdbQuery env.exports type).forM collectExported) env () env' := by
  have hget : EnvField.puppetdb.get env = true := hpuppetdb
  simp only [execCollector, decide_true, Bool.true_and, returns_bind_iff, returns_lift_iff,
    returnsQuiet_read_iff]
  constructor
  · rintro ⟨_, _, ⟨rfl, rfl⟩, hrun⟩
    rw [if_pos hget, returns_bind_iff] at hrun
    obtain ⟨_, _, hread, hrun⟩ := hrun
    obtain ⟨rfl, rfl⟩ := returnsQuiet_read_iff.1 (returns_lift_iff.1 hread)
    exact returns_lift_iff.1 hrun
  · intro hrun
    refine ⟨_, _, ⟨rfl, rfl⟩, ?_⟩
    rw [if_pos hget, returns_bind_iff]
    exact ⟨_, _, returns_lift_iff.2 (returnsQuiet_read_iff.2 ⟨rfl, rfl⟩), returns_lift_iff.2 hrun⟩

/-- Without PuppetDB, a collector of exported resources looks at virtual ones. -/
theorem returns_execCollector_exported_iff {type : String} {filter : Option Expr}
    (hpuppetdb : env.puppetdb = false) :
    w.Returns (execCollector w .exported type filter) env () env' ↔
      w.Returns (execCollector w .virtual type filter) env () env' := by
  have hget : EnvField.puppetdb.get env = false := hpuppetdb
  have hvirtual : decide (ResourceStyle.virtual = .exported) = false := rfl
  simp only [execCollector, decide_true, Bool.true_and, hvirtual, Bool.false_and, returns_bind_iff,
    returns_lift_iff, returnsQuiet_read_iff, and_assoc, exists_and_left, exists_eq_left, hget]

/-- An exported resource that another node exported is declared whatever the query. -/
theorem marked_of_execCollector {type : String} {filter : Option Expr}
    (hpuppetdb : env.puppetdb = true)
    (h : w.Returns (execCollector w .exported type filter) env () env') {r : ExportedResource}
    (hr : r ∈ w.puppetdbQuery env.exports type) (hother : ¬ env.IsOwnExport r) :
    resourceId r.type r.title ∈ env'.marks .resourceCatalog :=
  marked_of_forM_collectExported ((returns_execCollector_iff hpuppetdb).1 h) hr hother

end World

/-! ### When collectors select by their query -/

/-- The queries over some comparisons select a virtual resource exactly if they are true of it. -/
def World.SelectsByQuery (w : World) (r : VirtualResource) (tags : List String)
    (S : Set (String × Expr)) : Prop :=
  ∀ f, QueryOver S f → ∀ env b env',
    w.ReturnsQuiet (collects (some f) r) env b env' ↔ w.QueryGives (r.truth tags) f env b env'

theorem World.selectsByQuery_iff {w : World} {r : VirtualResource} {tags : List String}
    {S : Set (String × Expr)} :
    w.SelectsByQuery r tags S ↔ ∀ name right, (name, right) ∈ S → ∀ env v env',
      w.ReturnsQuiet (PuppetC.evalExpr right) env v env' → ComparedRightly r tags name v := by
  simp only [comparedRightly_iff]
  constructor
  · intro h name right hmem env v env' hright
    have hname : attributeName (.variable name) = some name := rfl
    have hquery := h (.binop .eq (.variable name) right) (.compare (.inl rfl) hname hmem) env
      (paramHolds r.attrs name v) env'
    have hgives := hquery.1 ((returnsQuiet_collects_iff (.compare (.inl rfl) hname hmem)).2
      (.eq hname hright))
    obtain ⟨u, hright', hanswer⟩ := (queryGives_compare_iff (.inl rfl) hname).1 hgives
    obtain ⟨rfl, -⟩ := hright.unique w.increasing_quiet hright'
    simpa using hanswer
  · intro h f hf env b env'
    rw [returnsQuiet_collects_iff hf]
    exact queryGives_congr hf h

/-- The exported resource, as a resource with its parameters. -/
def ExportedResource.asVirtual (r : ExportedResource) : VirtualResource :=
  ⟨r.type, r.title, r.parameters, false⟩

/-- A virtual user. -/
def aliceResource : VirtualResource := ⟨"user", "alice", [], false⟩

/-- A query for the title of the user. -/
def aliceQuery : Expr := .binop .eq (.variable "title") (.value (.string "alice"))

/-- PuppetDB answers with one file. -/
def World.withExport : World :=
  { World.bare with puppetdbQuery := fun _ _ ↦ [⟨"file", "/a", none, []⟩] }

/-- An environment with the user, and with PuppetDB. -/
def Env.withAlice : Env :=
  { Env.create with
    stored := fun _ ↦ Table.empty.set "user[alice]" aliceResource
    puppetdb := true }

end PuppetC
