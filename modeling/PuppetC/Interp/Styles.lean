import PuppetC.Interp.Runs
import PuppetC.Value.Look

/-!
# Array titles and splats in the styles of declarations

A declaration is written in one of five styles, each with a loop of its own over titles and
attributes. An array of titles is expanded for resources of built-in types and for defined
types, and a splat for resources of built-in types only.

## Main definitions

* `DeclarationStyle`, `DeclarationStyle.declare`: the styles, and the branch of
  `puppet_exec_stmt` for each.
* `Env.Alike`: environments in which what was declared is the same.
* `DeclarationStyle.ExpandsTitles`, `DeclarationStyle.ExpandsSplats`: array titles, or splats,
  mean in a style what their expansion means.

## Main results

* `DeclarationStyle.expands_iff`: the styles that expand titles, and the style that expands
  splats.
-/

namespace PuppetC

/-! ### What is alike after a declaration -/

/-- The values of the parameters of a name. -/
def paramValues (params : List (String × Value)) (name : String) : List Value :=
  (params.filter (·.1 = name)).map Prod.snd

/-- The same parameters, up to the order of those with different names. -/
def ParamsAlike (params params' : List (String × Value)) : Prop :=
  ∀ name, List.Forall₂ (fun v v' ↦ Value.Alike (some v) (some v'))
    (paramValues params name) (paramValues params' name)

/-- Resources with the same parameters. -/
structure CatalogResource.Alike (r r' : CatalogResource) : Prop where
  type : r.type = r'.type
  title : r.title = r'.title
  tags : r.tags = r'.tags
  exported : r.exported = r'.exported
  parameters : ParamsAlike r.parameters r'.parameters

/-- Catalogs with resources that are alike. -/
structure Catalog.Alike (c c' : Catalog) : Prop where
  certname : c.certname = c'.certname
  environment : c.environment = c'.environment
  resources : List.Forall₂ CatalogResource.Alike c.resources c'.resources
  edges : c.edges = c'.edges
  classes : c.classes = c'.classes

section World

variable (w : World)

/-- Queued instances of defined types that run alike. -/
structure DeferredDefine.Alike (d d' : DeferredDefine) : Prop where
  mark : d.toDeferredMark = d'.toDeferredMark
  resourceId : d.resourceId = d'.resourceId
  overrideAttrs : d.overrideAttrs = d'.overrideAttrs
  run : ∀ i env env', w.Returns (runDeferred w i d) env () env' ↔
    w.Returns (runDeferred w i d') env () env'

/-- Environments that are the same but for what `Catalog.Alike` and `DeferredDefine.Alike` leave
open. -/
structure Env.Alike (env env' : Env) : Prop where
  rest : { env with catalog := none, deferredDefines := [] } =
    { env' with catalog := none, deferredDefines := [] }
  catalog : Option.Rel Catalog.Alike env.catalog env'.catalog
  queue : List.Forall₂ (DeferredDefine.Alike w) env.deferredDefines env'.deferredDefines

/-- Two programs have the same effect. -/
def World.SameEffect (p p' : Comp Unit) : Prop :=
  ∀ env, (∀ env₁, w.Returns p env () env₁ → ∃ env₂, w.Returns p' env () env₂ ∧ env₁.Alike w env₂) ∧
    ∀ env₂, w.Returns p' env () env₂ → ∃ env₁, w.Returns p env () env₁ ∧ env₂.Alike w env₁

/-! ### Styles -/

/-- The styles of a declaration. -/
inductive DeclarationStyle where
  | normal
  | definedType
  | classResource
  | virtual
  | exported
  deriving DecidableEq

namespace DeclarationStyle

/-- The branch of `puppet_exec_stmt` for one instance of a declaration. The defined type is the
one that the type resolves to in this style. -/
def declare (d : DefineStmt) (type : String) (inst : ResourceInstance Expr) :
    DeclarationStyle → Comp Unit
  | .normal => declareNormal w type inst
  | .definedType => queueInstances w d type inst
  | .classResource => declareClass w inst
  | .virtual => declareVirtual type inst
  | .exported => declareExported w type inst

/-- The instances of a declaration, one after the other. -/
def declareAll (s : DeclarationStyle) (d : DefineStmt) (type : String)
    (insts : List (ResourceInstance Expr)) : Comp Unit :=
  insts.forM fun inst ↦ s.declare w d type inst

/-- An array of titles declares what instances with these titles declare. -/
def ExpandsTitles (s : DeclarationStyle) : Prop :=
  ∀ (w : World) (d : DefineStmt) (type : String) (titles : List String)
    (attrs : List (Attribute Expr)),
    w.SameEffect (s.declareAll w d type [⟨some (.array (titles.map textExpr)), attrs⟩])
      (s.declareAll w d type (titles.map fun t ↦ ⟨some (textExpr t), attrs⟩))

/-- A splat of a hash declares what its entries declare as attributes. -/
def ExpandsSplats (s : DeclarationStyle) : Prop :=
  ∀ (w : World) (d : DefineStmt) (type title : String) (before after : List (Attribute Expr))
    (entries : List (String × Expr)), (entries.map Prod.fst).Nodup →
    w.SameEffect
      (s.declareAll w d type [⟨some (textExpr title),
        before ++ ⟨none, .hash (entries.map fun e ↦ (textExpr e.1, e.2))⟩ :: after⟩])
      (s.declareAll w d type [⟨some (textExpr title),
        before ++ (entries.map fun e ↦ ⟨some e.1, e.2⟩) ++ after⟩])

end DeclarationStyle

end World

/-! ### What is alike stays alike -/

section Alike

variable {w : World} {env env' : Env}

theorem ParamsAlike.refl (params : List (String × Value)) : ParamsAlike params params :=
  fun _ ↦ List.forall₂_same.2 fun v _ ↦ .refl (some v)

theorem ParamsAlike.symm {params params' : List (String × Value)}
    (h : ParamsAlike params params') : ParamsAlike params' params :=
  fun name ↦ (h name).flip.imp fun _ _ ↦ Value.Alike.symm

theorem paramValues_append (ps qs : List (String × Value)) (name : String) :
    paramValues (ps ++ qs) name = paramValues ps name ++ paramValues qs name := by
  rw [paramValues, List.filter_append, List.map_append]
  rfl

theorem ParamsAlike.append {ps ps' qs qs' : List (String × Value)} (h : ParamsAlike ps ps')
    (h' : ParamsAlike qs qs') : ParamsAlike (ps ++ qs) (ps' ++ qs') := by
  intro name
  rw [paramValues_append, paramValues_append]
  exact List.rel_append (h name) (h' name)

theorem CatalogResource.Alike.refl (r : CatalogResource) : r.Alike r :=
  ⟨rfl, rfl, rfl, rfl, .refl _⟩

theorem Catalog.Alike.refl (c : Catalog) : c.Alike c :=
  ⟨rfl, rfl, List.forall₂_same.2 fun r _ ↦ .refl r, rfl, rfl⟩

theorem DeferredDefine.Alike.refl (d : DeferredDefine) : d.Alike w d :=
  ⟨rfl, rfl, rfl, fun _ _ _ ↦ Iff.rfl⟩

theorem Env.Alike.refl (env : Env) : env.Alike w env := by
  refine ⟨rfl, ?_, List.forall₂_same.2 fun d _ ↦ .refl d⟩
  cases env.catalog with
  | none => exact .none
  | some c => exact .some (.refl c)

/-- Environments that are alike differ in the catalog and the queue only. -/
theorem Env.Alike.eq (h : env.Alike w env') :
    env' = { env with catalog := env'.catalog, deferredDefines := env'.deferredDefines } := by
  have hrest := h.rest
  cases env
  cases env'
  simp only [Env.mk.injEq] at hrest ⊢
  tauto

/-- Programs that return the same have the same effect. -/
theorem World.sameEffect_of_iff {p p' : Comp Unit}
    (h : ∀ env env', w.Returns p env () env' ↔ w.Returns p' env () env') : w.SameEffect p p' :=
  fun env ↦ ⟨fun env₁ hret ↦ ⟨env₁, (h env env₁).1 hret, .refl env₁⟩,
    fun env₂ hret ↦ ⟨env₂, (h env env₂).2 hret, .refl env₂⟩⟩

end Alike

/-! ### Array titles -/

section Titles

variable {w : World} {env env' : Env}

/-- The part of `declareTitle` with the catalog. -/
def addDeclared (type t : String) (params : List (String × Value)) : Quiet Unit := do
  if ← read .building then
    let added ← perform (.addResource type t params)
    if !added && (← read .classReexecuting) then
      perform (.changeCatalog (·.updateResource type t params))
    applyCurrentTags type t

/-- The part of `declareNormal` for one title. -/
def declareTitle (w : World) (type : String) (attrs : List (Attribute Expr)) (t : String) :
    Quiet Unit := do
  let hint := emit .note "       Resource titles must be unique within their type"
  if ← claimResource (resourceId type t) hint then
    policyCheckResource w type t
    let params ← evalAttributes attrs
    addDeclared type t params

/-- The part of `queueInstances` for one title. -/
def queueTitle (w : World) (d : DefineStmt) (type : String) (inst : ResourceInstance Expr)
    (t : String) : Quiet Unit := do
  let id := resourceId type t
  if ← claimResource id (return ()) then
    policyCheckResource w type t
    perform (.queueDeferred ⟨d, inst, type, t, id⟩)

theorem titleTexts_textArray (titles : List String) :
    titleTexts (.array (titles.map .string)) = titles := by
  simp [titleTexts, Function.comp_def, Value.toText]

section

variable {s : DeclarationStyle} {d : DefineStmt} {type : String} {titles : List String}
  {attrs : List (Attribute Expr)} {f : ResourceInstance Expr → String → Quiet Unit}

/-- A style that does something for each title does it for the titles of an array. -/
theorem returns_declareAll_array_iff
    (hs : ∀ e, s.declare w d type ⟨some e, attrs⟩ =
      ((evalExpr e >>= fun v ↦ (titleTexts v).forM (f ⟨some e, attrs⟩) : Quiet Unit) : Comp Unit)) :
    w.Returns (s.declareAll w d type [⟨some (.array (titles.map textExpr)), attrs⟩]) env () env' ↔
      w.ReturnsQuiet (titles.forM (f ⟨some (.array (titles.map textExpr)), attrs⟩))
        env () env' := by
  rw [DeclarationStyle.declareAll, returns_forM_singleton_iff, hs]
  simp only [returns_lift_iff, returnsQuiet_bind_iff, returnsQuiet_textArray_iff]
  simp [titleTexts_textArray]

/-- The same for titles one after the other. -/
theorem returns_declareAll_titles_iff
    (hs : ∀ e, s.declare w d type ⟨some e, attrs⟩ =
      ((evalExpr e >>= fun v ↦ (titleTexts v).forM (f ⟨some e, attrs⟩) : Quiet Unit) : Comp Unit)) :
    w.Returns (s.declareAll w d type (titles.map fun t ↦ ⟨some (textExpr t), attrs⟩)) env () env' ↔
      w.ReturnsQuiet (titles.forM fun t ↦ f ⟨some (textExpr t), attrs⟩ t) env () env' := by
  rw [DeclarationStyle.declareAll]
  induction titles generalizing env with
  | nil => exact Prog.returns_forM_nil_iff.trans Prog.returns_forM_nil_iff.symm
  | cons t titles ih =>
    rw [List.map_cons, returns_forM_cons_iff, returnsQuiet_forM_cons_iff]
    refine exists_congr fun env₁ ↦ and_congr ?_ ih
    simp only [hs, returns_lift_iff, returnsQuiet_bind_iff, returnsQuiet_textExpr_iff]
    constructor
    · rintro ⟨_, _, ⟨rfl, rfl⟩, h⟩
      exact returnsQuiet_forM_singleton_iff.1 h
    · exact fun h ↦ ⟨_, _, ⟨rfl, rfl⟩, returnsQuiet_forM_singleton_iff.2 h⟩

end

theorem expandsTitles_normal : DeclarationStyle.normal.ExpandsTitles := by
  intro w d type titles attrs
  refine World.sameEffect_of_iff fun env env' ↦ ?_
  rw [returns_declareAll_array_iff (f := fun _ ↦ declareTitle w type attrs) fun _ ↦ rfl,
    returns_declareAll_titles_iff (f := fun _ ↦ declareTitle w type attrs) fun _ ↦ rfl]

/-! #### Instances of defined types -/

/-- An operation whose answer and effect do not depend on the catalog and the queue. -/
theorem simulates_perform {α : Type} {o : EnvPrim α}
    (ho : ∀ env c q, o.handle w.factsDb { env with catalog := c, deferredDefines := q } =
      (o.handle w.factsDb env).map fun r ↦
        (r.1, { r.2 with catalog := c, deferredDefines := q }))
    (hsame : ∀ env a env₁, o.handle w.factsDb env = .ok (a, env₁) →
      env₁.catalog = env.catalog ∧ env₁.deferredDefines = env.deferredDefines) :
    Prog.Simulates w.quietHandler (Env.Alike w) (perform o) (perform o) := by
  intro env env' a env₁ halike hret
  rw [← World.ReturnsQuiet, returnsQuiet_perform_iff] at hret
  obtain ⟨hcatalog, hqueue⟩ := hsame env a env₁ hret
  refine ⟨{ env₁ with catalog := env'.catalog, deferredDefines := env'.deferredDefines },
    returnsQuiet_perform_iff.2 ?_, rfl, hcatalog ▸ halike.catalog, hqueue ▸ halike.queue⟩
  rw [halike.eq, ho, hret]
  rfl

theorem simulates_emit (severity : Severity) (text : String) :
    Prog.Simulates w.quietHandler (Env.Alike w) (emit severity text) (emit severity text) := by
  refine simulates_perform (fun env c q ↦ ?_) fun env a env₁ h ↦ ?_
  · cases severity <;> rfl
  · cases h
    cases severity <;> exact ⟨rfl, rfl⟩

theorem simulates_isMarked (t : MarkTable) (key : String) :
    Prog.Simulates w.quietHandler (Env.Alike w) (perform (.isMarked t key))
      (perform (.isMarked t key)) :=
  simulates_perform (fun _ _ _ ↦ rfl) (by rintro env a _ ⟨⟩; exact ⟨rfl, rfl⟩)

theorem simulates_mark (t : MarkTable) (key : String) :
    Prog.Simulates w.quietHandler (Env.Alike w) (perform (.mark t key)) (perform (.mark t key)) :=
  simulates_perform (fun _ _ _ ↦ rfl) (by rintro env a _ ⟨⟩; exact ⟨rfl, rfl⟩)

theorem simulates_read {α : Type} {f : EnvField α}
    (hf : ∀ env c q, f.get { env with catalog := c, deferredDefines := q } = f.get env) :
    Prog.Simulates w.quietHandler (Env.Alike w) (read f) (read f) := by
  intro env env' a env₁ halike hret
  rw [← World.ReturnsQuiet, returnsQuiet_read_iff] at hret
  obtain ⟨rfl, rfl⟩ := hret
  refine ⟨env', returnsQuiet_read_iff.2 ⟨?_, rfl⟩, halike⟩
  rw [halike.eq]
  exact (hf _ _ _).symm

theorem simulates_claimResource (id : String) :
    Prog.Simulates w.quietHandler (Env.Alike w) (claimResource id (return ()))
      (claimResource id (return ())) := by
  refine (simulates_isMarked _ _).bind w.increasing_quiet fun existing ↦
    (simulates_read fun _ _ _ ↦ rfl).bind w.increasing_quiet fun reexecuting ↦ ?_
  split_ifs
  · refine (simulates_emit _ _).bind w.increasing_quiet fun _ ↦ .bind w.increasing_quiet (.pure _)
      fun _ ↦ .bind w.increasing_quiet ?_ fun _ ↦ .pure _
    exact simulates_perform (fun _ _ _ ↦ rfl) (by rintro env a _ ⟨⟩; exact ⟨rfl, rfl⟩)
  · exact (simulates_mark _ _).bind w.increasing_quiet fun _ ↦ .pure _

theorem simulates_policyCheckResource (type title : String) :
    Prog.Simulates w.quietHandler (Env.Alike w) (policyCheckResource w type title)
      (policyCheckResource w type title) := by
  unfold policyCheckResource
  split
  · exact .pure _
  · refine (simulates_isMarked _ _).bind w.increasing_quiet fun warned ↦ ?_
    cases warned
    · refine (simulates_mark _ _).bind w.increasing_quiet fun _ ↦ ?_
      dsimp only
      split_ifs <;> exact simulates_emit _ _
    · exact .pure _

/-- Of the instance as it was written, only the attributes are used. -/
theorem runDeferred_congr {d d' : DeferredDefine} (i : ℕ) (hdefine : d.defineStmt = d'.defineStmt)
    (hattrs : d.inst.attributes = d'.inst.attributes) (htype : d.typeName = d'.typeName)
    (htitle : d.title = d'.title) (hscope : d.callerScope = d'.callerScope)
    (hre : d.classReexecuting = d'.classReexecuting) : runDeferred w i d = runDeferred w i d' := by
  have hbind : bindDeferred w i d = bindDeferred w i d' := by
    funext scope p
    simp only [bindDeferred, hattrs, htype, htitle]
  simp only [runDeferred, catalogDeferred, hbind, hdefine, hattrs, htype, htitle, hscope, hre]

/-- Queued instances with the same attributes run alike. -/
theorem simulates_queueDeferred {q q' : QueuedDefine} (hdefine : q.defineStmt = q'.defineStmt)
    (hattrs : q.inst.attributes = q'.inst.attributes) (htype : q.typeName = q'.typeName)
    (htitle : q.title = q'.title) (hid : q.resourceId = q'.resourceId) :
    Prog.Simulates w.quietHandler (Env.Alike w) (perform (.queueDeferred q))
      (perform (.queueDeferred q')) := by
  intro env env' a env₁ halike hret
  rw [← World.ReturnsQuiet, returnsQuiet_perform_iff] at hret
  cases hret
  refine ⟨env'.queueDeferred q', returnsQuiet_perform_iff.2 rfl, ?_⟩
  rw [halike.eq]
  refine ⟨rfl, halike.catalog, List.rel_append halike.queue (.cons ⟨rfl, hid, rfl, ?_⟩ .nil)⟩
  intro i env env'
  exact iff_of_eq (congrArg (fun p ↦ w.Returns p env () env')
    (runDeferred_congr i hdefine hattrs htype htitle rfl rfl))

theorem simulates_queueTitle (d : DefineStmt) (type : String) {inst inst' : ResourceInstance Expr}
    (h : inst.attributes = inst'.attributes) (t : String) :
    Prog.Simulates w.quietHandler (Env.Alike w) (queueTitle w d type inst t)
      (queueTitle w d type inst' t) := by
  refine (simulates_claimResource _).bind w.increasing_quiet fun claimed ↦ ?_
  cases claimed
  · exact .pure _
  · exact (simulates_policyCheckResource _ _).bind w.increasing_quiet fun _ ↦
      simulates_queueDeferred rfl h rfl rfl rfl

theorem expandsTitles_definedType : DeclarationStyle.definedType.ExpandsTitles := by
  intro w d type titles attrs env
  let inArray := queueTitle w d type ⟨some (.array (titles.map textExpr)), attrs⟩
  let alone t := queueTitle w d type ⟨some (textExpr t), attrs⟩ t
  let declare := DeclarationStyle.definedType.declareAll w d type
  have harray {env'} :
      w.Returns (declare [⟨some (.array (titles.map textExpr)), attrs⟩]) env () env' ↔
        w.ReturnsQuiet (titles.forM inArray) env () env' :=
    returns_declareAll_array_iff (f := queueTitle w d type) fun _ ↦ rfl
  have htitles {env'} :
      w.Returns (declare (titles.map fun t ↦ ⟨some (textExpr t), attrs⟩)) env () env' ↔
        w.ReturnsQuiet (titles.forM alone) env () env' :=
    returns_declareAll_titles_iff (f := queueTitle w d type) fun _ ↦ rfl
  have hforth : Prog.Simulates w.quietHandler (Env.Alike w) (titles.forM inArray)
      (titles.forM alone) :=
    .forM w.increasing_quiet (fun t ↦ show Prog.Simulates _ _ (inArray t) (alone t) from
      simulates_queueTitle d type (by rfl) t) titles
  have hback : Prog.Simulates w.quietHandler (Env.Alike w) (titles.forM alone)
      (titles.forM inArray) :=
    .forM w.increasing_quiet (fun t ↦ show Prog.Simulates _ _ (alone t) (inArray t) from
      simulates_queueTitle d type (by rfl) t) titles
  refine ⟨fun env₁ hret ↦ ?_, fun env₂ hret ↦ ?_⟩
  · obtain ⟨env₂, hret', halike⟩ := hforth env env () env₁ (.refl env) (harray.1 hret)
    exact ⟨env₂, htitles.2 hret', halike⟩
  · obtain ⟨env₁, hret', halike⟩ := hback env env () env₂ (.refl env) (htitles.1 hret)
    exact ⟨env₁, harray.2 hret', halike⟩

end Titles

/-! ### Splats -/

section Splats

variable {w : World} {env env' : Env}

/-- The parameters that an attribute stands for. -/
def attributeParams (a : Attribute Expr) (v : Value) : List (String × Value) :=
  match a.name, v with
  | some name, v => [(name, v.copy)]
  | none, .hash es => Value.copyEntries es
  | none, _ => []

theorem evalAttributes_cons (a : Attribute Expr) (as : List (Attribute Expr)) :
    evalAttributes (a :: as) = evalExpr a.value >>= fun v ↦ evalAttributes as >>= fun rest ↦
      pure (attributeParams a v ++ rest) := by
  obtain ⟨name, e⟩ := a
  rw [evalAttributes]
  refine congrArg _ (funext fun v ↦ congrArg _ (funext fun rest ↦ ?_))
  cases name <;> cases v <;> rfl

theorem returnsQuiet_evalAttributes_cons_iff {a : Attribute Expr} {as : List (Attribute Expr)}
    {params : List (String × Value)} :
    w.ReturnsQuiet (evalAttributes (a :: as)) env params env' ↔
      ∃ v env₁ rest, w.ReturnsQuiet (evalExpr a.value) env v env₁ ∧
        w.ReturnsQuiet (evalAttributes as) env₁ rest env' ∧
          params = attributeParams a v ++ rest := by
  rw [evalAttributes_cons]
  simp only [returnsQuiet_bind_iff, Prog.returns_pure_iff]
  constructor
  · rintro ⟨v, env₁, hv, rest, _, hrest, rfl, rfl⟩
    exact ⟨v, env₁, rest, hv, hrest, rfl⟩
  · rintro ⟨v, env₁, rest, hv, hrest, rfl⟩
    exact ⟨v, env₁, hv, rest, env', hrest, rfl, rfl⟩

theorem returnsQuiet_evalAttributes_append_iff {as bs : List (Attribute Expr)}
    {params : List (String × Value)} :
    w.ReturnsQuiet (evalAttributes (as ++ bs)) env params env' ↔
      ∃ ps env₁ qs, w.ReturnsQuiet (evalAttributes as) env ps env₁ ∧
        w.ReturnsQuiet (evalAttributes bs) env₁ qs env' ∧ params = ps ++ qs := by
  induction as generalizing env params with
  | nil =>
    constructor
    · exact fun h ↦ ⟨[], env, params, Prog.returns_pure_iff.2 ⟨rfl, rfl⟩, h, rfl⟩
    · rintro ⟨ps, env₁, qs, hps, hqs, rfl⟩
      obtain ⟨rfl, rfl⟩ := Prog.returns_pure_iff.1 hps
      exact hqs
  | cons a as ih =>
    simp only [List.cons_append, returnsQuiet_evalAttributes_cons_iff, ih]
    constructor
    · rintro ⟨v, env₁, _, hv, ⟨ps, env₂, qs, hps, hqs, rfl⟩, rfl⟩
      exact ⟨_, env₂, qs, ⟨v, env₁, ps, hv, hps, rfl⟩, hqs, by rw [List.append_assoc]⟩
    · rintro ⟨_, env₂, qs, ⟨v, env₁, ps, hv, hps, rfl⟩, hqs, rfl⟩
      exact ⟨v, env₁, _, hv, ⟨ps, env₂, qs, hps, hqs, rfl⟩, by rw [List.append_assoc]⟩

/-- Attributes with names have parameters of these names, whose values are copies. -/
theorem params_of_named {entries : List (String × Expr)} {params : List (String × Value)}
    (h : w.ReturnsQuiet (evalAttributes (entries.map fun e ↦ ⟨some e.1, e.2⟩)) env params env') :
    params.map Prod.fst = entries.map Prod.fst ∧ ∀ p ∈ params, p.2.Keyed := by
  induction entries generalizing env params with
  | nil =>
    obtain ⟨rfl, -⟩ := Prog.returns_pure_iff.1 h
    simp
  | cons e es ih =>
    obtain ⟨v, env₁, rest, -, hrest, rfl⟩ := returnsQuiet_evalAttributes_cons_iff.1 h
    obtain ⟨hkeys, hkeyed⟩ := ih hrest
    exact ⟨by simp [attributeParams, hkeys],
      List.forall_mem_cons.2 ⟨Value.keyed_copy v, hkeyed⟩⟩

/-- The entry of a new literal key. -/
theorem returnsQuiet_evalEntries_cons_iff {k : String} {e : Expr} {rest : List (Expr × Expr)}
    {before : List Expr} {acc : List (String × Value)} {u : Value} (hk : hashGet acc k = none) :
    w.ReturnsQuiet (evalEntries before acc ((textExpr k, e) :: rest)) env u env' ↔
      ∃ v env₁, w.ReturnsQuiet (evalExpr e) env v env₁ ∧
        w.ReturnsQuiet (evalEntries (before ++ [textExpr k]) (hashSet acc k v.copy) rest)
          env₁ u env' := by
  rw [textExpr, evalEntries]
  constructor
  · intro h
    obtain ⟨_, _, hkey, hvalue⟩ := returnsQuiet_bind_iff.1 h
    obtain ⟨rfl, rfl⟩ := returnsQuiet_literal_iff.1 hkey
    obtain ⟨v, env₁, hv, hmatch⟩ := returnsQuiet_bind_iff.1 hvalue
    obtain ⟨_, _, hread, hrest⟩ := returnsQuiet_bind_iff.1 hmatch
    obtain ⟨rfl, rfl⟩ := returnsQuiet_read_iff.1 hread
    refine ⟨v, _, hv, ?_⟩
    simpa [hk] using hrest
  · rintro ⟨v, env₁, hv, h⟩
    refine returnsQuiet_bind_iff.2 ⟨.string k, env, returnsQuiet_literal_iff.2 ⟨rfl, rfl⟩,
      returnsQuiet_bind_iff.2 ⟨v, env₁, hv, returnsQuiet_bind_iff.2 ⟨_, env₁,
        returnsQuiet_read_iff.2 ⟨rfl, rfl⟩, ?_⟩⟩⟩
    simpa [hk] using h

/-- A hash literal has the entries that its pairs have as attributes. -/
theorem returnsQuiet_evalEntries_iff {entries : List (String × Expr)} {before : List Expr}
    {acc : List (String × Value)} {u : Value} (hkeys : (entries.map Prod.fst).Nodup)
    (hacc : ∀ e ∈ entries, hashGet acc e.1 = none) :
    w.ReturnsQuiet (evalEntries before acc (entries.map fun e ↦ (textExpr e.1, e.2))) env u env' ↔
      ∃ params,
        w.ReturnsQuiet (evalAttributes (entries.map fun e ↦ ⟨some e.1, e.2⟩)) env params env' ∧
          u = .hash (setEntries acc params) := by
  induction entries generalizing env before acc with
  | nil =>
    constructor
    · intro h
      obtain ⟨rfl, rfl⟩ := Prog.returns_pure_iff.1 h
      exact ⟨[], Prog.returns_pure_iff.2 ⟨rfl, rfl⟩, rfl⟩
    · rintro ⟨params, h, rfl⟩
      obtain ⟨rfl, rfl⟩ := Prog.returns_pure_iff.1 h
      exact Prog.returns_pure_iff.2 ⟨rfl, rfl⟩
  | cons e es ih =>
    obtain ⟨hnot, hkeys⟩ := List.nodup_cons.1 hkeys
    obtain ⟨he, hacc⟩ := List.forall_mem_cons.1 hacc
    have hacc' : ∀ v, ∀ f ∈ es, hashGet (hashSet acc e.1 v) f.1 = none := by
      intro v f hf
      rw [hashGet_hashSet_of_ne, hacc f hf]
      rintro heq
      exact hnot (heq ▸ List.mem_map_of_mem hf)
    rw [List.map_cons, List.map_cons]
    simp only [returnsQuiet_evalEntries_cons_iff he, returnsQuiet_evalAttributes_cons_iff,
      ih hkeys (hacc' _)]
    constructor
    · rintro ⟨v, env₁, hv, params, hparams, rfl⟩
      exact ⟨_, ⟨v, env₁, params, hv, hparams, rfl⟩, rfl⟩
    · rintro ⟨_, ⟨v, env₁, params, hv, hparams, rfl⟩, rfl⟩
      exact ⟨v, env₁, hv, params, hparams, rfl⟩

theorem returnsQuiet_splat_iff {entries : List (String × Expr)} {params : List (String × Value)}
    (hkeys : (entries.map Prod.fst).Nodup) :
    w.ReturnsQuiet
        (evalAttributes [⟨none, .hash (entries.map fun e ↦ (textExpr e.1, e.2))⟩]) env params env' ↔
      ∃ ps, w.ReturnsQuiet (evalAttributes (entries.map fun e ↦ ⟨some e.1, e.2⟩)) env ps env' ∧
        params = Value.copyEntries (setEntries [] ps) := by
  have hhash {u env'} :
      w.ReturnsQuiet (evalEntries [] [] (entries.map fun e ↦ (textExpr e.1, e.2))) env u env' ↔ _ :=
    returnsQuiet_evalEntries_iff hkeys fun e _ ↦ hashGet_nil e.1
  rw [returnsQuiet_evalAttributes_cons_iff]
  constructor
  · rintro ⟨v, env₁, rest, hv, hrest, rfl⟩
    obtain ⟨rfl, rfl⟩ := Prog.returns_pure_iff.1 hrest
    obtain ⟨ps, hps, rfl⟩ := hhash.1 (returns_lift_iff.1 (returnsQuiet_call_iff.1 hv))
    exact ⟨ps, hps, by simp [attributeParams]⟩
  · rintro ⟨ps, hps, rfl⟩
    exact ⟨_, env', [], returnsQuiet_call_iff.2 (returns_lift_iff.2 (hhash.2 ⟨ps, hps, rfl⟩)),
      Prog.returns_pure_iff.2 ⟨rfl, rfl⟩, by simp [attributeParams]⟩

/-- Under a name that occurs once there is one value. -/
theorem paramValues_of_nodup {ps : List (String × Value)} (hps : (ps.map Prod.fst).Nodup)
    (name : String) : paramValues ps name = (hashGet ps name).toList := by
  induction ps with
  | nil => rfl
  | cons p ps ih =>
    obtain ⟨hnot, hps⟩ := List.nodup_cons.1 hps
    rw [hashGet_cons, ← List.singleton_append, paramValues_append, ih hps]
    split_ifs with hname
    · rw [hashGet_eq_none_iff.2 (hname ▸ hnot)]
      simp [paramValues, hname]
    · simp [paramValues, hname]

/-- The entries of a splat are the parameters that its pairs have as attributes. -/
theorem paramsAlike_splat {ps : List (String × Value)} (hkeys : (ps.map Prod.fst).Nodup)
    (hps : ∀ p ∈ ps, p.2.Keyed) : ParamsAlike (Value.copyEntries (setEntries [] ps)) ps := by
  intro name
  have hnodup : ((Value.copyEntries (setEntries [] ps)).map Prod.fst).Nodup := by
    rw [Value.keys_copyEntries]
    exact nodup_setEntries_nil ps
  rw [paramValues_of_nodup hnodup, paramValues_of_nodup hkeys, Value.hashGet_copyEntries,
    hashGet_setEntries hkeys, hashGet_nil]
  cases hname : hashGet ps name with
  | none => exact .nil
  | some v => exact .cons (hps _ (mem_of_hashGet hname)).alike_copy .nil

/-- What some attributes return, others return too. -/
def AttributesImitate (w : World) (as bs : List (Attribute Expr)) : Prop :=
  ∀ env ps env', w.ReturnsQuiet (evalAttributes as) env ps env' →
    ∃ qs, w.ReturnsQuiet (evalAttributes bs) env qs env' ∧ ParamsAlike ps qs

theorem AttributesImitate.append {as bs cs ds : List (Attribute Expr)}
    (h : AttributesImitate w as bs) (h' : AttributesImitate w cs ds) :
    AttributesImitate w (as ++ cs) (bs ++ ds) := by
  intro env params env' hret
  obtain ⟨ps, env₁, qs, hps, hqs, rfl⟩ := returnsQuiet_evalAttributes_append_iff.1 hret
  obtain ⟨ps', hps', halike⟩ := h env ps env₁ hps
  obtain ⟨qs', hqs', halike'⟩ := h' env₁ qs env' hqs
  exact ⟨_, returnsQuiet_evalAttributes_append_iff.2 ⟨ps', env₁, qs', hps', hqs', rfl⟩,
    halike.append halike'⟩

theorem AttributesImitate.refl (as : List (Attribute Expr)) : AttributesImitate w as as :=
  fun _ ps _ h ↦ ⟨ps, h, .refl ps⟩

section

variable {entries : List (String × Expr)} (hkeys : (entries.map Prod.fst).Nodup)
include hkeys

theorem splat_imitates_named :
    AttributesImitate w [⟨none, .hash (entries.map fun e ↦ (textExpr e.1, e.2))⟩]
      (entries.map fun e ↦ ⟨some e.1, e.2⟩) := by
  intro env params env' hret
  obtain ⟨ps, hps, rfl⟩ := (returnsQuiet_splat_iff hkeys).1 hret
  obtain ⟨hnames, hkeyed⟩ := params_of_named hps
  exact ⟨ps, hps, paramsAlike_splat (hnames ▸ hkeys) hkeyed⟩

theorem named_imitates_splat :
    AttributesImitate w (entries.map fun e ↦ ⟨some e.1, e.2⟩)
      [⟨none, .hash (entries.map fun e ↦ (textExpr e.1, e.2))⟩] := by
  intro env ps env' hret
  obtain ⟨hnames, hkeyed⟩ := params_of_named hret
  exact ⟨_, (returnsQuiet_splat_iff hkeys).2 ⟨ps, hret, rfl⟩,
    (paramsAlike_splat (hnames ▸ hkeys) hkeyed).symm⟩

end

/-! #### In the catalog -/

theorem CatalogResource.Alike.isNamed {r r' : CatalogResource} (h : r.Alike r')
    (type title : String) : r.isNamed type title = r'.isNamed type title := by
  rw [CatalogResource.isNamed, CatalogResource.isNamed, h.type, h.title]

theorem Catalog.Alike.findResource {c c' : Catalog} (h : c.Alike c') (type title : String) :
    (c.findResource type title).isSome = (c'.findResource type title).isSome := by
  have hfind : ∀ {rs rs'}, List.Forall₂ CatalogResource.Alike rs rs' →
      (rs.find? (·.isNamed type title)).isSome = (rs'.find? (·.isNamed type title)).isSome := by
    intro rs rs' hrs
    induction hrs with
    | nil => rfl
    | @cons r r' rs rs' hr _ ih =>
      rw [List.find?_cons, List.find?_cons, hr.isNamed]
      cases r'.isNamed type title
      exacts [ih, rfl]
  exact hfind h.resources

/-- Adding a resource to catalogs that are alike. -/
theorem Catalog.Alike.addResource {c c' : Catalog} (h : c.Alike c') (type title : String)
    {ps ps' : List (String × Value)} (hps : ParamsAlike ps ps') :
    Option.Rel Catalog.Alike (c.addResource type title ps) (c'.addResource type title ps') := by
  have hfind := h.findResource type title
  rw [Catalog.addResource, Catalog.addResource]
  cases hc : c.findResource type title <;> cases hc' : c'.findResource type title <;>
    rw [hc, hc'] at hfind
  · exact .some ⟨h.certname, h.environment,
      List.rel_append h.resources (.cons ⟨rfl, rfl, rfl, rfl, hps⟩ .nil), h.edges, h.classes⟩
  · cases hfind
  · cases hfind
  · exact .none

theorem Catalog.Alike.changeFound {c c' : Catalog} (h : c.Alike c') {type title : String}
    {f f' : CatalogResource → CatalogResource} (hf : ∀ r r', r.Alike r' → (f r).Alike (f' r')) :
    (c.changeFound type title f).Alike (c'.changeFound type title f') := by
  have hchange : ∀ {rs rs'}, List.Forall₂ CatalogResource.Alike rs rs' →
      List.Forall₂ CatalogResource.Alike (Catalog.changeResource type title f rs)
        (Catalog.changeResource type title f' rs') := by
    intro rs rs' hrs
    induction hrs with
    | nil => exact .nil
    | @cons r r' rs rs' hr hrs ih =>
      rw [Catalog.changeResource, Catalog.changeResource, hr.isNamed]
      split_ifs
      exacts [.cons (hf r r' hr) hrs, .cons hr ih]
  exact ⟨h.certname, h.environment, hchange h.resources, h.edges, h.classes⟩

theorem Catalog.Alike.updateResource {c c' : Catalog} (h : c.Alike c') (type title : String)
    {ps ps' : List (String × Value)} (hps : ParamsAlike ps ps') :
    (c.updateResource type title ps).Alike (c'.updateResource type title ps') :=
  h.changeFound fun _ _ hr ↦ ⟨hr.type, hr.title, hr.tags, hr.exported, hps⟩

theorem Catalog.Alike.addResourceTags {c c' : Catalog} (h : c.Alike c') (type title : String)
    (tags : List String) :
    (c.addResourceTags type title tags).Alike (c'.addResourceTags type title tags) :=
  h.changeFound fun _ _ hr ↦ ⟨hr.type, hr.title, by rw [hr.tags], hr.exported, hr.parameters⟩

theorem Env.Alike.catalog_cases (h : env.Alike w env') :
    env.catalog = none ∧ env'.catalog = none ∨
      ∃ c c', env.catalog = some c ∧ env'.catalog = some c' ∧ c.Alike c' := by
  have hcatalog := h.catalog
  generalize env.catalog = c, env'.catalog = c' at hcatalog
  cases hcatalog with
  | none => exact .inl ⟨rfl, rfl⟩
  | some hc => exact .inr ⟨_, _, rfl, rfl, hc⟩

theorem Env.Alike.withCatalog (h : env.Alike w env') {c c' : Option Catalog}
    (hc : Option.Rel Catalog.Alike c c') :
    Env.Alike w { env with catalog := c } { env' with catalog := c' } := by
  rw [h.eq]
  exact ⟨rfl, hc, h.queue⟩

theorem simulates_changeCatalog {f f' : Catalog → Catalog}
    (hf : ∀ c c', c.Alike c' → (f c).Alike (f' c')) :
    Prog.Simulates w.quietHandler (Env.Alike w) (perform (.changeCatalog f))
      (perform (.changeCatalog f')) := by
  intro env env' a env₁ halike hret
  rw [← World.ReturnsQuiet, returnsQuiet_perform_iff] at hret
  cases hret
  refine ⟨_, returnsQuiet_perform_iff.2 rfl, halike.withCatalog ?_⟩
  rcases halike.catalog_cases with ⟨hc, hc'⟩ | ⟨c, c', hc, hc', hcatalog⟩
  · rw [hc, hc']
    exact .none
  · rw [hc, hc']
    exact .some (hf c c' hcatalog)

theorem simulates_addResource (type title : String) {ps ps' : List (String × Value)}
    (hps : ParamsAlike ps ps') :
    Prog.Simulates w.quietHandler (Env.Alike w) (perform (.addResource type title ps))
      (perform (.addResource type title ps')) := by
  intro env env' a env₁ halike hret
  rw [← World.ReturnsQuiet, returnsQuiet_perform_iff] at hret
  have hhandle : ∀ env : Env, ∀ qs, (EnvPrim.addResource type title qs).handle w.factsDb env =
      (env.catalog.bind (·.addResource type title qs)).elim (.ok (false, env))
        fun c ↦ .ok (true, { env with catalog := some c }) := by
    intro env qs
    rw [EnvPrim.handle]
    cases env.catalog.bind (·.addResource type title qs) <;> rfl
  rw [hhandle] at hret
  have hsim : ∀ x y, Option.Rel Catalog.Alike x y →
      x = env.catalog.bind (·.addResource type title ps) →
      y = env'.catalog.bind (·.addResource type title ps') →
      ∃ env₂, w.ReturnsQuiet (perform (.addResource type title ps')) env' a env₂ ∧
        env₁.Alike w env₂ := by
    rintro x y hxy hx hy
    rw [← hx] at hret
    cases hxy with
    | none =>
      cases hret
      exact ⟨env', returnsQuiet_perform_iff.2 (by rw [hhandle, ← hy, Option.elim_none]), halike⟩
    | some hc =>
      cases hret
      exact ⟨_, returnsQuiet_perform_iff.2 (by rw [hhandle, ← hy, Option.elim_some]),
        halike.withCatalog (.some hc)⟩
  refine hsim _ _ ?_ rfl rfl
  rcases halike.catalog_cases with ⟨hc, hc'⟩ | ⟨c, c', hc, hc', hcatalog⟩
  · rw [hc, hc']
    exact .none
  · rw [hc, hc']
    exact hcatalog.addResource type title hps

theorem simulates_building :
    Prog.Simulates w.quietHandler (Env.Alike w) (read .building) (read .building) := by
  intro env env' a env₁ halike hret
  rw [← World.ReturnsQuiet, returnsQuiet_read_iff] at hret
  obtain ⟨rfl, rfl⟩ := hret
  refine ⟨env', returnsQuiet_read_iff.2 ⟨?_, rfl⟩, halike⟩
  have hbuild : env₁.buildCatalog = env'.buildCatalog := by rw [halike.eq]
  have hsome : env₁.catalog.isSome = env'.catalog.isSome := by
    rcases halike.catalog_cases with ⟨hc, hc'⟩ | ⟨c, c', hc, hc', -⟩ <;>
      simp [hc, hc']
  rw [EnvField.get, EnvField.get, hbuild, hsome]

theorem simulates_applyCurrentTags (type title : String) :
    Prog.Simulates w.quietHandler (Env.Alike w) (applyCurrentTags type title)
      (applyCurrentTags type title) := by
  refine (simulates_read fun _ _ _ ↦ rfl).bind w.increasing_quiet fun tags ↦ ?_
  cases tags with
  | none => exact .pure _
  | some tags =>
    exact simulates_changeCatalog fun c c' h ↦ h.addResourceTags type title _

theorem simulates_addDeclared (type t : String) {ps ps' : List (String × Value)}
    (hps : ParamsAlike ps ps') :
    Prog.Simulates w.quietHandler (Env.Alike w) (addDeclared type t ps)
      (addDeclared type t ps') := by
  refine simulates_building.bind w.increasing_quiet fun building ↦ ?_
  cases building
  · exact .pure _
  refine (simulates_addResource type t hps).bind w.increasing_quiet fun added ↦ ?_
  refine (simulates_read fun _ _ _ ↦ rfl).bind w.increasing_quiet fun reexecuting ↦ ?_
  split_ifs
  · exact (simulates_changeCatalog fun c c' h ↦ h.updateResource type t hps).bind
      w.increasing_quiet fun _ ↦ simulates_applyCurrentTags type t
  · exact simulates_applyCurrentTags type t

/-- From the same environment, one program returns what another returns, in environments that
are alike. -/
def Imitates (w : World) (p p' : Quiet Unit) : Prop :=
  ∀ env env', w.ReturnsQuiet p env () env' →
    ∃ env₂, w.ReturnsQuiet p' env () env₂ ∧ env'.Alike w env₂

theorem Imitates.bind_left {α : Type} (p : Quiet α) {f f' : α → Quiet Unit}
    (hf : ∀ a, Imitates w (f a) (f' a)) : Imitates w (p >>= f) (p >>= f') := by
  intro env env' hret
  obtain ⟨a, env₁, hp, hrest⟩ := returnsQuiet_bind_iff.1 hret
  obtain ⟨env₂, hrest', halike⟩ := hf a env₁ env' hrest
  exact ⟨env₂, returnsQuiet_bind_iff.2 ⟨a, env₁, hp, hrest'⟩, halike⟩

/-- A declaration depends on the parameters that its attributes return. -/
theorem imitates_declareTitle {as bs : List (Attribute Expr)} (h : AttributesImitate w as bs)
    (type t : String) : Imitates w (declareTitle w type as t) (declareTitle w type bs t) := by
  refine .bind_left _ fun claimed ↦ ?_
  cases claimed
  · exact fun env env' hret ↦ ⟨env', hret, .refl env'⟩
  refine .bind_left _ fun _ env env' hret ↦ ?_
  obtain ⟨ps, env₁, hps, hadd⟩ := returnsQuiet_bind_iff.1 hret
  obtain ⟨qs, hqs, halike⟩ := h env ps env₁ hps
  obtain ⟨env₂, hadd', hsim⟩ :=
    simulates_addDeclared type t halike env₁ env₁ () env' (.refl env₁) hadd
  exact ⟨env₂, returnsQuiet_bind_iff.2 ⟨qs, env₁, hqs, hadd'⟩, hsim⟩

theorem expandsSplats_normal : DeclarationStyle.normal.ExpandsSplats := by
  intro w d type title before after entries hkeys
  let splat : List (Attribute Expr) :=
    before ++ ⟨none, .hash (entries.map fun e ↦ (textExpr e.1, e.2))⟩ :: after
  let named : List (Attribute Expr) := before ++ (entries.map fun e ↦ ⟨some e.1, e.2⟩) ++ after
  have hone {attrs env env'} :
      w.Returns (DeclarationStyle.normal.declareAll w d type [⟨some (textExpr title), attrs⟩])
        env () env' ↔ w.ReturnsQuiet (declareTitle w type attrs title) env () env' :=
    (show w.Returns (DeclarationStyle.normal.declareAll w d type
        ([title].map fun t ↦ ⟨some (textExpr t), attrs⟩)) env () env' ↔ _ from
      returns_declareAll_titles_iff (f := fun _ ↦ declareTitle w type attrs) fun _ ↦ rfl).trans
        returnsQuiet_forM_singleton_iff
  have hforth : AttributesImitate w splat named := by
    have h := ((AttributesImitate.refl before).append (splat_imitates_named (w := w) hkeys)).append
      (.refl after)
    simpa only [splat, named, List.append_assoc, List.singleton_append] using h
  have hback : AttributesImitate w named splat := by
    have h := ((AttributesImitate.refl before).append (named_imitates_splat (w := w) hkeys)).append
      (.refl after)
    simpa only [splat, named, List.append_assoc, List.singleton_append] using h
  refine fun env ↦ ⟨fun env₁ hret ↦ ?_, fun env₂ hret ↦ ?_⟩
  · obtain ⟨env₂, hret', halike⟩ := imitates_declareTitle hforth type title env env₁ (hone.1 hret)
    exact ⟨env₂, hone.2 hret', halike⟩
  · obtain ⟨env₁, hret', halike⟩ := imitates_declareTitle hback type title env env₂ (hone.1 hret)
    exact ⟨env₁, hone.2 hret', halike⟩

end Splats

/-! ### Styles that do not expand -/

section Counterexamples

variable {w : World}

/-- Programs that leave something different behind do not have the same effect. -/
theorem World.not_sameEffect {γ : Type} {p p' : Comp Unit} (env : Env) (f : Env → γ)
    (hf : ∀ {env₁ env₂ : Env}, env₁.Alike w env₂ → f env₁ = f env₂) (fuel : ℕ) (c c' : γ)
    (h : (p.run (w.handler fuel) env).toOption.map (fun r ↦ f r.2) = some c)
    (h' : (p'.run (w.handler fuel) env).toOption.map (fun r ↦ f r.2) = some c') (hne : c ≠ c') :
    ¬ w.SameEffect p p' := by
  intro hsame
  obtain ⟨_, env₁, hrun, rfl⟩ := exists_ok_of_observed h
  obtain ⟨_, env₂, hrun', rfl⟩ := exists_ok_of_observed h'
  obtain ⟨env₃, hret, halike⟩ := (hsame env).1 env₁ ⟨fuel, hrun⟩
  obtain ⟨-, rfl⟩ := hret.unique w.increasing ⟨fuel, hrun'⟩
  exact hne (hf halike)

/-- A define with one parameter and no statements. -/
def emptyDefine : DefineStmt := ⟨"d", [⟨"x", none, none⟩], []⟩

/-- A class with one parameter and no statements. -/
def emptyClass : ClassStmt := ⟨"c", [⟨"x", none, none⟩], none, []⟩

/-- Is a resource among the stored ones? -/
def Env.stores (env : Env) (t : StoredTable) (key : String) : Bool :=
  ((env.stored t).get key).isSome

/-- The attributes of a stored resource. -/
def Env.storedAttrs (env : Env) (t : StoredTable) (key : String) : List (String × Value) :=
  (((env.stored t).get key).map (·.attrs)).getD []

/-- The value of a variable in a cell of the heap. -/
def Env.cellVar (env : Env) (n : ℕ) (name : String) : Option Value :=
  (env.scopes[n]?).bind (·.scope.vars.get name)

section

variable {env env' : Env} (h : env.Alike w env')
include h

theorem Env.Alike.marks : env.marks = env'.marks := by
  rw [h.eq]

theorem Env.Alike.stored : env.stored = env'.stored := by
  rw [h.eq]

theorem Env.Alike.scopes : env.scopes = env'.scopes := by
  rw [h.eq]

end

theorem not_expandsTitles_class : ¬ DeclarationStyle.classResource.ExpandsTitles := fun h ↦
  World.not_sameEffect Env.create (fun env ↦ env.marks .classResourceDecls)
    (fun halike ↦ by rw [halike.marks]) 3 ["[a, b]"] ["b", "a"]
    (by decide +kernel) (by decide +kernel) (by decide)
    (h World.bare emptyDefine "class" ["a", "b"] [])

theorem not_expandsTitles_virtual : ¬ DeclarationStyle.virtual.ExpandsTitles := fun h ↦
  World.not_sameEffect Env.create (fun env ↦ env.stores .virtualResources "file[a]")
    (fun halike ↦ by rw [Env.stores, Env.stores, halike.stored]) 3 false true
    (by decide +kernel) (by decide +kernel) (by decide)
    (h World.bare emptyDefine "file" ["a", "b"] [])

theorem not_expandsTitles_exported : ¬ DeclarationStyle.exported.ExpandsTitles := fun h ↦
  World.not_sameEffect Env.create (fun env ↦ env.stores .exportedResources "file[a]")
    (fun halike ↦ by rw [Env.stores, Env.stores, halike.stored]) 3 false true
    (by decide +kernel) (by decide +kernel) (by decide)
    (h World.bare emptyDefine "file" ["a", "b"] [])

/-- A splat is no attribute of a virtual resource. -/
theorem not_expandsSplats_virtual : ¬ DeclarationStyle.virtual.ExpandsSplats := fun h ↦
  World.not_sameEffect Env.create
    (fun env ↦ env.storedAttrs .virtualResources "file[a]")
    (fun halike ↦ by rw [Env.storedAttrs, Env.storedAttrs, halike.stored]) 3 [] [("x", .string "v")]
    (by decide +kernel) (by decide +kernel) (by decide)
    (h World.bare emptyDefine "file" "a" [] [] [("x", textExpr "v")] (by decide))

theorem not_expandsSplats_exported : ¬ DeclarationStyle.exported.ExpandsSplats := fun h ↦
  World.not_sameEffect Env.create
    (fun env ↦ env.storedAttrs .exportedResources "file[a]")
    (fun halike ↦ by rw [Env.storedAttrs, Env.storedAttrs, halike.stored]) 3 [] [("x", .string "v")]
    (by decide +kernel) (by decide +kernel) (by decide)
    (h World.bare emptyDefine "file" "a" [] [] [("x", textExpr "v")] (by decide))

/-- A parameter that a splat gives stays without value. -/
theorem not_expandsSplats_class : ¬ DeclarationStyle.classResource.ExpandsSplats := fun h ↦
  World.not_sameEffect { Env.create with classDefinitions := [emptyClass] }
    (fun env ↦ env.cellVar 0 "x")
    (fun halike ↦ by rw [Env.cellVar, Env.cellVar, halike.scopes]) 4 (some .undef)
    (some (.string "v")) (by decide +kernel) (by decide +kernel) (by decide)
    (h World.bare emptyDefine "class" "c" [] [] [("x", textExpr "v")] (by decide))

/-- An instance of `d` with the title `a`, queued first. -/
def queuedInstance (attrs : List (Attribute Expr)) : QueuedDefine :=
  ⟨emptyDefine, ⟨some (textExpr "a"), attrs⟩, "d", "a", "d[a]"⟩

theorem not_expandsSplats_definedType : ¬ DeclarationStyle.definedType.ExpandsSplats := by
  intro h
  let env attrs := (Env.create.mark .resourceCatalog "d[a]").queueDeferred (queuedInstance attrs)
  let splat : List (Attribute Expr) := [⟨none, .hash [(textExpr "x", textExpr "v")]⟩]
  let named : List (Attribute Expr) := [⟨some "x", textExpr "v"⟩]
  have hsame := (h World.bare emptyDefine "d" "a" [] [] [("x", textExpr "v")] (by decide)
    Env.create).1 (env splat) ⟨3, rfl⟩
  obtain ⟨env₂, hret, halike⟩ := hsame
  have hnamed : World.bare.Returns (DeclarationStyle.definedType.declareAll World.bare emptyDefine
    "d" [⟨some (textExpr "a"), named⟩]) Env.create () (env named) := ⟨3, rfl⟩
  obtain ⟨-, rfl⟩ := hret.unique World.bare.increasing hnamed
  obtain ⟨hrun, -⟩ := List.forall₂_cons.1 halike.queue
  let body attrs := runDeferred World.bare 0
    { queuedInstance attrs with
      overrideAttrs := Table.empty, classReexecuting := false, callerScope := .global,
      ticket := 0, placed := false, started := false }
  obtain ⟨_, env₁, h₁, he₁⟩ := exists_ok_of_observed
    (x := (body splat).run (World.bare.handler 5) (env splat)) (f := fun env ↦ env.cellVar 0 "x")
    (c := none) (by decide +kernel)
  obtain ⟨_, env₂, h₂, he₂⟩ := exists_ok_of_observed
    (x := (body named).run (World.bare.handler 5) (env splat)) (f := fun env ↦ env.cellVar 0 "x")
    (c := some (.string "v")) (by decide +kernel)
  obtain ⟨-, rfl⟩ := ((hrun.run 0 (env splat) env₁).1 ⟨5, h₁⟩).unique World.bare.increasing ⟨5, h₂⟩
  rw [he₁] at he₂
  cases he₂

end Counterexamples

end PuppetC
