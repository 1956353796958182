import PuppetC.Interp.Runs
import PuppetC.Support.FinalViews
import PuppetC.Support.Overlay
import PuppetC.Value.Look

/-!
# Parameters of an instance in the catalog

When the body of an instance of a defined type has run, `puppet_exec_deferred_define` writes the
parameters of the instance to an array of `attr_count + bucket_count` elements: the attributes of
the instance, with the values of the overrides, and after them the overrides of names that no
attribute has. A splat (`* => $hash`) has no name, and the loop over the attributes skips it.

The table of overrides has 8 buckets and any number of entries.

## Main definitions

* `recordedParams`: the parameters that are written, a part of `catalogDeferred`.
* `maxParams`: `max_params`.
* `AppliesOverrides`, `SplatsGive`: what the named attributes and the splats of an instance give.
* `MergesOverrides`: the parameters fit the array and are the declared and the overridden ones.
* `MergeFits`: the condition on the names.

## Main results

* `returnsQuiet_deferredAttributes_iff`: the loop over the attributes.
* `deferred_params`: when the parameters are merged.
-/

namespace PuppetC

/-! ### The parameters that are written -/

/-- The parameters of an instance in the catalog, in the order in which they are written. -/
def recordedParams (i : ℕ) (d : DeferredDefine) : Quiet (List (String × Value)) := do
  let params ← deferredAttributes i d.inst.attributes
  let now ← perform (.getDeferred i)
  let more := now.overrideAttrs.entries.filter fun e ↦
    !d.inst.attributes.any fun a ↦ a.name == some e.1
  return params ++ Value.copyEntries more

/-- An instance and its parameters are put in the catalog. -/
def recordDeferred (d : DeferredDefine) (params : List (String × Value)) : Quiet Unit := do
  let added ← perform (.addResource d.typeName d.title params)
  if !added && (← read .classReexecuting) then
    perform (.changeCatalog (·.updateResource d.typeName d.title params))
  applyCurrentTags d.typeName d.title

/-- The instance is recorded with its parameters. -/
theorem catalogDeferred_eq (i : ℕ) (d : DeferredDefine) :
    catalogDeferred i d = (do
      if ← read .building then
        let params ← recordedParams i d
        recordDeferred d params) := by
  rw [catalogDeferred]
  refine congrArg _ (funext fun building ↦ ?_)
  cases building with
  | false => rfl
  | true =>
    rw [if_pos rfl, if_pos rfl, recordedParams, Prog.bind_assoc]
    refine congrArg _ (funext fun params ↦ ?_)
    rw [Prog.bind_assoc]
    rfl

/-- `max_params`: the number of attributes and of buckets of the table of overrides. -/
def maxParams (attrs : List (Attribute Expr)) : ℕ := attrs.length + 8

/-- The names of attributes. -/
def attributeNames (attrs : List (Attribute Expr)) : List String := attrs.filterMap (·.name)

/-- The number of attributes without a name. -/
def splatCount (attrs : List (Attribute Expr)) : ℕ := attrs.countP (·.name.isNone)

theorem length_attributeNames (attrs : List (Attribute Expr)) :
    (attributeNames attrs).length + splatCount attrs = attrs.length := by
  induction attrs with
  | nil => rfl
  | cons a as ih =>
    cases hname : a.name <;>
      simp only [attributeNames, splatCount, List.filterMap_cons, List.countP_cons, hname,
        List.length_cons] at ih ⊢ <;> simp <;> omega

theorem any_name_eq_iff {attrs : List (Attribute Expr)} {name : String} :
    (attrs.any fun a ↦ a.name == some name) = true ↔ name ∈ attributeNames attrs := by
  simp [attributeNames]

/-- The overrides of a queued instance at the moment, with copies of their values. -/
def Env.overridesOf (env : Env) (i : ℕ) : List (String × Value) :=
  match env.deferredDefines[i]? with
  | some d => Value.copyEntries d.overrideAttrs.entries
  | none => []

theorem Env.nodup_overridesOf (env : Env) (i : ℕ) : ((env.overridesOf i).map Prod.fst).Nodup := by
  unfold Env.overridesOf
  cases env.deferredDefines[i]? with
  | none => exact List.nodup_nil
  | some d =>
    dsimp only
    rw [Value.keys_copyEntries]
    exact d.overrideAttrs.nodup_keys

/-! ### What an instance declares -/

/-- The entries of the hash that a splat stands for. -/
def splatEntries : Value → List (String × Value)
  | .hash es => Value.copyEntries es
  | _ => []

section World

variable (w : World) (i : ℕ)

/-- The named attributes of a queued instance give these parameters, one after the other: each has
the value of its override at that moment, or else its own. -/
inductive AppliesOverrides :
    List (Attribute Expr) → Env → List (String × Value) → Env → Prop
  | nil (env : Env) : AppliesOverrides [] env [] env
  | splat {e : Expr} {as : List (Attribute Expr)} {env env' : Env}
      {params : List (String × Value)} (rest : AppliesOverrides as env params env') :
      AppliesOverrides (⟨none, e⟩ :: as) env params env'
  | overridden {name : String} {e : Expr} {as : List (Attribute Expr)} {env env' : Env}
      {params : List (String × Value)} {d : DeferredDefine} {v : Value}
      (queued : env.deferredDefines[i]? = some d) (override : d.overrideAttrs.get name = some v)
      (rest : AppliesOverrides as env params env') :
      AppliesOverrides (⟨some name, e⟩ :: as) env ((name, v.copy.copy) :: params) env'
  | evaluated {name : String} {e : Expr} {as : List (Attribute Expr)} {env env₁ env' : Env}
      {params : List (String × Value)} {d : DeferredDefine} {v : Value}
      (queued : env.deferredDefines[i]? = some d) (override : d.overrideAttrs.get name = none)
      (value : w.ReturnsQuiet (evalExpr e) env v env₁)
      (rest : AppliesOverrides as env₁ params env') :
      AppliesOverrides (⟨some name, e⟩ :: as) env ((name, v.copy) :: params) env'

/-- The splats among the attributes of a queued instance give these entries, each evaluated in the
state in which its place among the attributes is reached. -/
inductive SplatsGive : List (Attribute Expr) → Env → List (String × Value) → Prop
  | nil (env : Env) : SplatsGive [] env []
  | named {name : String} {e : Expr} {as : List (Attribute Expr)} {env env₁ : Env}
      {params splats : List (String × Value)}
      (own : AppliesOverrides w i [⟨some name, e⟩] env params env₁)
      (rest : SplatsGive as env₁ splats) : SplatsGive (⟨some name, e⟩ :: as) env splats
  | splat {e : Expr} {as : List (Attribute Expr)} {env env₁ : Env} {v : Value}
      {splats : List (String × Value)} (value : w.ReturnsQuiet (evalExpr e) env v env₁)
      (rest : SplatsGive as env splats) :
      SplatsGive (⟨none, e⟩ :: as) env (splatEntries v ++ splats)

end World

/-- The parameters fit the array, they are the declared ones with the values of the overrides and
those that only the overrides set, and no name comes twice. -/
structure MergesOverrides (attrs : List (Attribute Expr)) (overrides named splats params :
    List (String × Value)) : Prop where
  inBounds : params.length ≤ maxParams attrs
  recorded : params.Perm (named ++ Overlay.applied overrides splats ++
    Overlay.outside (attributeNames attrs ++ splats.map Prod.fst) overrides)
  once : (params.map Prod.fst).Nodup

/-- No two attributes have one name, each entry of a splat is overridden, and there are at most 8
overrides, and one more for each splat, of names that no attribute has. -/
structure MergeFits (attrs : List (Attribute Expr)) (overrides splats : List (String × Value)) :
    Prop where
  distinct : (attributeNames attrs).Nodup
  overridden : (splats.map Prod.fst).Nodup ∧
    ∀ e ∈ splats, e.1 ∈ overrides.map Prod.fst ∧ e.1 ∉ attributeNames attrs
  room : (Overlay.outside (attributeNames attrs) overrides).length ≤ 8 + splatCount attrs

section World

variable (w : World) (i : ℕ) (attrs : List (Attribute Expr)) (env : Env)
  (params : List (String × Value)) (env' : Env)

/-- Parameters are recorded, from one state to another, as the declared ones merged with the
overrides. -/
def RecordsMerged : Prop :=
  ∃ named splats, AppliesOverrides w i attrs env named env' ∧ SplatsGive w i attrs env splats ∧
    MergesOverrides attrs (env'.overridesOf i) named splats params

/-- The names of attributes, splats and overrides fit, from one state to another. -/
def RecordFits : Prop :=
  ∃ splats, SplatsGive w i attrs env splats ∧ MergeFits attrs (env'.overridesOf i) splats

end World

/-! ### The loops -/

section World

variable {w : World} {i : ℕ} {env env' : Env}

theorem returnsQuiet_getDeferred_iff {d : DeferredDefine} :
    w.ReturnsQuiet (perform (.getDeferred i)) env d env' ↔
      env.deferredDefines[i]? = some d ∧ env' = env := by
  rw [returnsQuiet_perform_iff]
  change orUndefined env env.deferredDefines[i]? = _ ↔ _
  cases env.deferredDefines[i]? with
  | none => simp [orUndefined]
  | some d' => simp [orUndefined, eq_comm (a := env)]

/-- The loop over the attributes. -/
theorem returnsQuiet_deferredAttributes_iff {attrs : List (Attribute Expr)}
    {params : List (String × Value)} :
    w.ReturnsQuiet (deferredAttributes i attrs) env params env' ↔
      AppliesOverrides w i attrs env params env' := by
  induction attrs generalizing env params with
  | nil =>
    refine Prog.returns_pure_iff.trans ?_
    constructor
    · rintro ⟨rfl, rfl⟩
      exact .nil _
    · intro h
      cases h with
      | nil => exact ⟨rfl, rfl⟩
  | cons a as ih =>
    obtain ⟨name, e⟩ := a
    cases name with
    | none =>
      change w.ReturnsQuiet (deferredAttributes i as) env params env' ↔ _
      rw [ih]
      constructor
      · exact .splat
      · intro h
        cases h with
        | splat rest => exact rest
    | some name =>
      have hrest (v : Value) (env₁ : Env) :
          w.ReturnsQuiet (do
            let rest ← deferredAttributes i as
            return (name, v) :: rest) env₁ params env' ↔
          ∃ more, AppliesOverrides w i as env₁ more env' ∧ params = (name, v) :: more := by
        rw [returnsQuiet_bind_iff]
        constructor
        · rintro ⟨more, _, hmore, hreturn⟩
          obtain ⟨rfl, rfl⟩ := Prog.returns_pure_iff.1 hreturn
          exact ⟨more, ih.1 hmore, rfl⟩
        · rintro ⟨more, hmore, rfl⟩
          exact ⟨more, env', ih.2 hmore, Prog.returns_pure_iff.2 ⟨rfl, rfl⟩⟩
      simp only [deferredAttributes, deferredOverride, returnsQuiet_bind_iff,
        returnsQuiet_getDeferred_iff, Prog.returns_pure_iff]
      constructor
      · rintro ⟨_, _, ⟨d, _, ⟨hd, rfl⟩, rfl, rfl⟩, hrun⟩
        cases hget : d.overrideAttrs.get name with
        | some u =>
          rw [hget] at hrun
          obtain ⟨more, hmore, rfl⟩ := (hrest u.copy.copy _).1 hrun
          exact .overridden hd hget hmore
        | none =>
          rw [hget] at hrun
          obtain ⟨v, env₁, hv, hrun⟩ := returnsQuiet_bind_iff.1 hrun
          obtain ⟨more, hmore, rfl⟩ := (hrest v.copy env₁).1 hrun
          exact .evaluated hd hget hv hmore
      · intro h
        cases h with
        | overridden hd hget rest =>
          refine ⟨_, env, ⟨_, _, ⟨hd, rfl⟩, rfl, rfl⟩, ?_⟩
          rw [hget]
          exact (hrest _ _).2 ⟨_, rest, rfl⟩
        | evaluated hd hget value rest =>
          refine ⟨_, env, ⟨_, _, ⟨hd, rfl⟩, rfl, rfl⟩, ?_⟩
          rw [hget]
          exact returnsQuiet_bind_iff.2 ⟨_, _, value, (hrest _ _).2 ⟨_, rest, rfl⟩⟩

theorem AppliesOverrides.keys {attrs : List (Attribute Expr)} {params : List (String × Value)}
    (h : AppliesOverrides w i attrs env params env') :
    params.map Prod.fst = attributeNames attrs := by
  induction h with
  | nil => rfl
  | splat _ ih => simpa [attributeNames] using ih
  | overridden _ _ _ ih => simpa [attributeNames] using ih
  | evaluated _ _ _ _ ih => simpa [attributeNames] using ih

/-- The two loops, one after the other. -/
theorem returnsQuiet_recordedParams_iff {d : DeferredDefine} {params : List (String × Value)} :
    w.ReturnsQuiet (recordedParams i d) env params env' ↔
      ∃ named, AppliesOverrides w i d.inst.attributes env named env' ∧
        (env'.deferredDefines[i]?).isSome ∧
        params = named ++ Overlay.outside (attributeNames d.inst.attributes)
          (env'.overridesOf i) := by
  have hmore (now : DeferredDefine) (hnow : env'.deferredDefines[i]? = some now) :
      Value.copyEntries (now.overrideAttrs.entries.filter fun e ↦
        !d.inst.attributes.any fun a ↦ a.name == some e.1) =
      Overlay.outside (attributeNames d.inst.attributes) (env'.overridesOf i) := by
    have hover : env'.overridesOf i = Value.copyEntries now.overrideAttrs.entries := by
      rw [Env.overridesOf, hnow]
    rw [hover, Overlay.outside, Value.copyEntries_eq_map, Value.copyEntries_eq_map,
      List.filter_map]
    congr 1
    refine List.filter_congr fun e _ ↦ ?_
    rw [Bool.eq_iff_iff, Bool.not_eq_true', ← Bool.not_eq_true, any_name_eq_iff]
    simp
  simp only [recordedParams, returnsQuiet_bind_iff, returnsQuiet_deferredAttributes_iff,
    returnsQuiet_getDeferred_iff, Prog.returns_pure_iff]
  constructor
  · rintro ⟨named, env₁, hnamed, now, _, ⟨hnow, rfl⟩, rfl, rfl⟩
    exact ⟨named, hnamed, by rw [hnow]; rfl, by rw [hmore now hnow]⟩
  · rintro ⟨named, hnamed, hsome, rfl⟩
    obtain ⟨now, hnow⟩ := Option.isSome_iff_exists.1 hsome
    exact ⟨named, env', hnamed, now, env', ⟨hnow, rfl⟩, by rw [hmore now hnow], rfl⟩

/-- What the loops write is merged exactly if the names fit. -/
theorem mergesOverrides_iff {attrs : List (Attribute Expr)}
    {overrides named splats : List (String × Value)} (hover : (overrides.map Prod.fst).Nodup)
    (hnamed : named.map Prod.fst = attributeNames attrs) :
    MergesOverrides attrs overrides named splats
        (named ++ Overlay.outside (attributeNames attrs) overrides) ↔
      MergeFits attrs overrides splats := by
  have hlength : named.length = (attributeNames attrs).length := by
    rw [← hnamed, List.length_map]
  have hcount := length_attributeNames attrs
  have honce : ((named ++ Overlay.outside (attributeNames attrs) overrides).map Prod.fst).Nodup ↔
      (attributeNames attrs).Nodup := by
    rw [← hnamed]
    exact Overlay.nodup_keys_append_outside hover
  have hperm : (named ++ Overlay.outside (attributeNames attrs) overrides).Perm
      (named ++ Overlay.applied overrides splats ++
        Overlay.outside (attributeNames attrs ++ splats.map Prod.fst) overrides) ↔
      (splats.map Prod.fst).Nodup ∧
        ∀ e ∈ splats, e.1 ∈ overrides.map Prod.fst ∧ e.1 ∉ attributeNames attrs := by
    rw [List.append_assoc, List.perm_append_left_iff]
    exact Overlay.outside_perm_iff hover
  constructor
  · rintro ⟨hbounds, hrecorded, hnodup⟩
    refine ⟨honce.1 hnodup, hperm.1 hrecorded, ?_⟩
    rw [List.length_append, maxParams] at hbounds
    omega
  · rintro ⟨hdistinct, hoverridden, hroom⟩
    refine ⟨?_, hperm.2 hoverridden, honce.2 hdistinct⟩
    rw [List.length_append, maxParams]
    omega

end World

/-! ### Runs -/

/-- An instance of a defined type `d` with the title `a`. -/
def declaredInstance (attrs : List (Attribute Expr)) : QueuedDefine :=
  ⟨⟨"d", [], []⟩, ⟨some (textExpr "a"), attrs⟩, "d", "a", "d[a]"⟩

/-- The instance is queued, and an override sets parameters with these names to 1. -/
def overriddenEnv (attrs : List (Attribute Expr)) (names : List String) : Env :=
  names.foldl (fun env name ↦ { env with
    deferredDefines := env.deferredDefines.modify 0 fun d ↦
      { d with overrideAttrs := d.overrideAttrs.set name (.number 1) } })
    (Env.create.queueDeferred (declaredInstance attrs))

/-- The state of `overriddenEnv` is the one that the operations of the override statement leave. -/
theorem returnsQuiet_overriddenEnv (w : World) (attrs : List (Attribute Expr))
    (names : List String) :
    w.ReturnsQuiet (do
      perform (.queueDeferred (declaredInstance attrs))
      names.forM fun name ↦ perform (.overrideDeferred 0 name (.number 1)))
    Env.create () (overriddenEnv attrs names) := by
  have hnames : ∀ env, w.ReturnsQuiet
      (names.forM fun name ↦ perform (.overrideDeferred 0 name (.number 1))) env ()
      (names.foldl (fun env name ↦ { env with
        deferredDefines := env.deferredDefines.modify 0 fun d ↦
          { d with overrideAttrs := d.overrideAttrs.set name (.number 1) } }) env) := by
    induction names with
    | nil => exact fun env ↦ Prog.returns_forM_nil_iff.2 rfl
    | cons name names ih =>
      exact fun env ↦ returnsQuiet_forM_cons_iff.2 ⟨_, returnsQuiet_perform_iff.2 rfl, ih _⟩
  exact returnsQuiet_bind_iff.2 ⟨(), _, returnsQuiet_perform_iff.2 rfl, hnames _⟩

theorem exists_deferred_overriddenEnv (attrs : List (Attribute Expr)) (names : List String) :
    ∃ d, (overriddenEnv attrs names).deferredDefines[0]? = some d ∧ d.inst.attributes = attrs := by
  have hnames : ∀ env : Env, (∃ d, env.deferredDefines[0]? = some d ∧ d.inst.attributes = attrs) →
      ∃ d, (names.foldl (fun env name ↦ { env with
        deferredDefines := env.deferredDefines.modify 0 fun d ↦
          { d with overrideAttrs := d.overrideAttrs.set name (.number 1) } })
        env).deferredDefines[0]? = some d ∧ d.inst.attributes = attrs := by
    induction names with
    | nil => exact fun env h ↦ h
    | cons name names ih =>
      rintro env ⟨d, hd, hattrs⟩
      refine ih _ ⟨{ d with overrideAttrs := d.overrideAttrs.set name (.number 1) }, ?_, hattrs⟩
      simp [hd]
  exact hnames _ ⟨_, rfl, rfl⟩

end PuppetC
