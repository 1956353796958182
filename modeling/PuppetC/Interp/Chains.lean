import PuppetC.Interp.Runs
import PuppetC.Parser.Chain

/-!
# Edges of chains

What the execution of a converted chain adds to the catalog. The operands are executed, and their
titles evaluated, by calls; `chainLog` answers these calls by given titles and keeps the list of
the statements that are executed, so that what remains is what the chain itself does.

## Main definitions

* `ChainLog`, `chainLog`: what is recorded of a chain, and the meaning of its operations.
* `adjacentEdges`: the edges between adjacent operands.
* `ResourceChain.AddsAdjacentEdges`: conversion and execution add exactly these edges.
* `ResourceChain.IsReadAsWritten`: a condition on arrows and titles.
* `World.Evaluates`: a world where titles have given values and operands add no edges.

## Main results

* `run_execStmt_chain`: the statements and edges of a nested chain.
* `ResourceChain.addsAdjacentEdges_iff`: when exactly the edges between adjacent operands are
  added.
* `World.Evaluates.edges_execStmt`: the edges that a nested chain adds in a world.
-/

namespace PuppetC

/-! ### Titles and edges -/

/-- The edge of an arrow between two resources. -/
def Arrow.edge (arrow : Arrow) (left right : String × String) : CatalogEdge :=
  let relationship := match arrow.chainType with
    | .notify => Relationship.notify
    | .before => Relationship.before
  if arrow.isReverse then ⟨right.1, right.2, left.1, left.2, relationship⟩
  else ⟨left.1, left.2, right.1, right.2, relationship⟩

section Titles

variable (t : Expr → Value)

/-- The value of an access that is written as a variable with keys, or as one expression. -/
def AccessElement.value : AccessElement → Value
  | .keyed name key keys =>
    keys.foldl (fun v k ↦ indexValue v (t k)) (indexValue (t (.variable name)) (t key))
  | .plain e => t e

namespace ChainOperand

/-- The values of the titles of an operand. -/
def titleValues : ChainOperand → List Value
  | reference _ element elements => (element :: elements).map (·.value t)
  | declaration decl => decl.instances.filterMap fun inst ↦ inst.title.map t

/-- The titles of an operand. -/
def titles (o : ChainOperand) : List String := (o.titleValues t).flatMap titleTexts

/-- The type of an operand. -/
def type : ChainOperand → String
  | reference type _ _ => type
  | declaration decl => decl.type

/-- The operand has titles, and all of them have a value. -/
def IsTitled (o : ChainOperand) : Prop := o.titles t ≠ [] ∧ ∀ v ∈ o.titleValues t, v ≠ .undef

end ChainOperand

/-- The edges of an arrow between two operands: one for each pair of titles. -/
def linkEdges (left : ChainOperand) (arrow : Arrow) (right : ChainOperand) : List CatalogEdge :=
  (left.titles t).flatMap fun a ↦
    (right.titles t).map fun b ↦ arrow.edge (left.type, a) (right.type, b)

/-- The edges between adjacent operands. -/
def adjacentEdges (o : ChainOperand) : List (Arrow × ChainOperand) → List CatalogEdge
  | [] => []
  | (arrow, o') :: links => linkEdges t o arrow o' ++ adjacentEdges o' links

end Titles

/-! ### The record of an execution -/

/-- What is recorded while a chain is executed. -/
structure ChainLog where
  executed : List Stmt
  catalog : Catalog
  diagnostics : List Diagnostic

/-- The meaning of the operations of a chain on the record. -/
def chainPrim : (β : Type) → QuietOp β → ChainLog → Except Halt (β × ChainLog)
  | _, .read .catalog, log => .ok (some log.catalog, log)
  | _, .prim (.changeCatalog f), log => .ok ((), { log with catalog := f log.catalog })
  | _, .prim (.emit d), log => .ok ((), { log with diagnostics := log.diagnostics ++ [d] })
  | _, _, _ => .error .undefinedBehaviour

/-- A nested chain is executed, another statement is recorded. -/
def chainStmt (exec : Quiet Unit → ChainLog → Except Halt (Unit × ChainLog)) :
    Stmt → ChainLog → Except Halt (Unit × ChainLog)
  | .chain left right type, log => exec (execChain left right type) log
  | s, log => .ok ((), { log with executed := log.executed ++ [s] })

section Log

variable (t : Expr → Value)

/-- The meaning of the calls of a chain: titles are evaluated by `t`. -/
def chainCall (exec : Stmt → ChainLog → Except Halt (Unit × ChainLog)) :
    (β : Type) → Call β → ChainLog → Except Halt (β × ChainLog)
  | _, .evalExpr e, log => .ok (t e, log)
  | _, .execStmt s, log => exec s log
  | _, .execStmtList _, _ | _, .includeClassFromDef _, _ | _, .loaderIncludeClass _, _
  | _, .lookupChain _, _ | _, .providerLookup .., _ | _, .matchesFilter .., _ =>
    .error .undefinedBehaviour

/-- The meaning of operations and calls for a chain, with chains nested `fuel` deep at most. -/
def chainLog : ℕ → Handler (Calls Call QuietOp) ChainLog Halt
  | _, β, .prim o => chainPrim β o
  | 0, β, .call c => chainCall t (fun _ _ ↦ .error .outOfFuel) β c
  | fuel + 1, β, .call c => chainCall t (chainStmt fun p ↦ p.run (chainLog fuel)) β c

/-! ### The edges of a nested chain -/

/-- A title, if it is a string. -/
def titleOf : Option Expr → Option String
  | some e =>
    match t e with
    | .string s => some s
    | _ => none
  | none => none

/-- The resource at one end of a chain. -/
def refOf : Stmt → Option (String × String)
  | .expression (.resourceRef type title) => (titleOf t title).map fun s ↦ (type, s)
  | .resource decl =>
    match decl.instances with
    | [] => none
    | inst :: _ => (titleOf t inst.title).map fun s ↦ (decl.type, s)
  | _ => none

/-- The edge of one chain. -/
def ownEdge (left right : Stmt) (type : ChainType) : Option CatalogEdge :=
  match refOf t (chainEnd left), refOf t right with
  | some (sourceType, sourceTitle), some (targetType, targetTitle) =>
    let relationship := match type with
      | .notify => Relationship.notify
      | .before => Relationship.before
    some ⟨sourceType, sourceTitle, targetType, targetTitle, relationship⟩
  | _, _ => none

/-- The statements that a nested chain joins. -/
def chainOperands : Stmt → List Stmt
  | .chain left right _ => chainOperands left ++ chainOperands right
  | s => [s]

/-- The edges of a nested chain. -/
def chainEdges : Stmt → List CatalogEdge
  | .chain left right type =>
    chainEdges left ++ chainEdges right ++ (ownEdge t left right type).toList
  | _ => []

theorem run_chainTitle (fuel : ℕ) (title : Option Expr) (log : ChainLog) :
    (chainTitle title).run (chainLog t fuel) log = .ok (titleOf t title, log) := by
  cases title with
  | none => rfl
  | some e =>
    have heval : (evalExpr e).run (chainLog t fuel) log = .ok (t e, log) := by
      rw [evalExpr, call, Prog.run_perform]
      cases fuel <;> rfl
    rw [chainTitle, Prog.run_bind, heval, titleOf]
    cases t e <;> rfl

theorem run_chainRef (fuel : ℕ) (s : Stmt) (log : ChainLog) :
    (chainRef s).run (chainLog t fuel) log = .ok (refOf t s, log) := by
  unfold chainRef
  split
  · simp only [Prog.run_bind, run_chainTitle]
    rfl
  · next decl =>
    rw [refOf]
    cases decl.instances with
    | nil => rfl
    | cons inst insts =>
      simp only [Prog.run_bind, run_chainTitle]
      rfl
  · next hexpr hdecl =>
    unfold refOf
    split
    · exact absurd rfl (hexpr _ _)
    · exact absurd rfl (hdecl _)
    · rfl

/-- Statements are executed and edges are added between two records. -/
structure ChainLog.Extends (log log' : ChainLog) (executed : List Stmt)
    (edges : List CatalogEdge) : Prop where
  executed : log'.executed = log.executed ++ executed
  catalog : log'.catalog = { log.catalog with edges := log.catalog.edges ++ edges }

theorem ChainLog.Extends.trans {log₁ log₂ log₃ : ChainLog} {ss ss' : List Stmt}
    {es es' : List CatalogEdge} (h : log₁.Extends log₂ ss es) (h' : log₂.Extends log₃ ss' es') :
    log₁.Extends log₃ (ss ++ ss') (es ++ es') where
  executed := by rw [h'.executed, h.executed, List.append_assoc]
  catalog := by rw [h'.catalog, h.catalog, List.append_assoc]

/-- A nested chain executes its operands and adds its edges. -/
theorem run_execStmt_chain (s : Stmt) : ∃ n, ∀ fuel ≥ n, ∀ log : ChainLog, ∃ log',
    (execStmt s).run (chainLog t fuel) log = .ok ((), log') ∧
      log.Extends log' (chainOperands s) (chainEdges t s) := by
  induction s using chainOperands.induct with
  | case1 left right type ihl ihr =>
    obtain ⟨n, hl⟩ := ihl
    obtain ⟨m, hr⟩ := ihr
    refine ⟨max n m + 1, fun fuel hfuel log ↦ ?_⟩
    obtain ⟨fuel, rfl⟩ : ∃ k, fuel = k + 1 := ⟨fuel - 1, by omega⟩
    obtain ⟨log₁, hrunl, hextl⟩ := hl fuel (by omega) log
    obtain ⟨log₂, hrunr, hextr⟩ := hr fuel (by omega) log₁
    have hread : (read .catalog).run (chainLog t fuel) log₂ =
        .ok (some log₂.catalog, log₂) := by
      cases fuel <;> rfl
    have hchain : (execStmt (.chain left right type)).run (chainLog t (fuel + 1)) log =
        (execChain left right type).run (chainLog t fuel) log := by
      rw [execStmt, call, Prog.run_perform]
      rfl
    have hprim : ∀ o : EnvPrim Unit, (perform o).run (chainLog t fuel) log₂ =
        chainPrim Unit (.prim o) log₂ := by
      intro o
      rw [perform, Prog.run_perform]
      cases fuel <;> rfl
    have hboth := hextl.trans hextr
    rw [hchain]
    unfold execChain
    simp only [Prog.run_bind, hrunl, hrunr, hread, run_chainRef, Option.isSome_some, if_true]
    rw [chainEdges, chainOperands]
    unfold ownEdge
    cases hsource : refOf t (chainEnd left) with
    | none =>
      exact ⟨_, hprim (.emit _), by simpa using ⟨hboth.executed, hboth.catalog⟩⟩
    | some source =>
      cases htarget : refOf t right with
      | none =>
        exact ⟨_, hprim (.emit _), by simpa using ⟨hboth.executed, hboth.catalog⟩⟩
      | some target =>
        refine ⟨_, hprim (.changeCatalog _), hboth.executed, ?_⟩
        cases type <;>
          simp only [Catalog.addEdge, hboth.catalog, Option.toList_some, List.append_assoc]
  | case2 s hs =>
    refine ⟨1, fun fuel hfuel log ↦ ⟨{ log with executed := log.executed ++ [s] }, ?_, ?_⟩⟩
    · obtain ⟨fuel, rfl⟩ : ∃ k, fuel = k + 1 := ⟨fuel - 1, by omega⟩
      rw [execStmt, call, Prog.run_perform]
      change chainStmt _ s log = _
      unfold chainStmt
      split
      · exact absurd rfl (hs _ _ _)
      · rfl
    · rw [chainOperands, chainEdges]
      · exact ⟨rfl, by rw [List.append_nil]⟩
      · exact hs
      · exact hs

end Log

section Titles

variable (t : Expr → Value)

/-! ### The edges of a chain of resources -/

namespace ChainOperand

/-- The resource that a converted operand stands for. -/
def ref (o : ChainOperand) : Option (String × String) := refOf t o.stmt

theorem chainEdges_stmt (o : ChainOperand) : chainEdges t o.stmt = [] := by
  cases o <;> rfl

theorem chainOperands_stmt (o : ChainOperand) : chainOperands o.stmt = [o.stmt] := by
  cases o <;> rfl

theorem chainEnd_stmt (o : ChainOperand) : chainEnd o.stmt = o.stmt := by
  cases o <;> rfl

end ChainOperand

theorem chainOperands_linkStmts (arrow : Arrow) (tree cur : Stmt) :
    (chainOperands (linkStmts arrow tree cur)).Perm (chainOperands tree ++ chainOperands cur) := by
  unfold linkStmts
  split_ifs
  · exact List.perm_append_comm
  · exact List.Perm.refl _

/-- The operands of a chain are executed, each once. -/
theorem chainOperands_linkOperands (tree : Stmt) (links : List (Arrow × ChainOperand)) :
    (chainOperands (linkOperands tree links)).Perm
      (chainOperands tree ++ links.map fun l ↦ l.2.stmt) := by
  induction links generalizing tree with
  | nil => simp [linkOperands]
  | cons l links ih =>
    refine (ih _).trans ?_
    rw [List.map_cons]
    refine ((chainOperands_linkStmts l.1 tree l.2.stmt).append_right _).trans ?_
    rw [ChainOperand.chainOperands_stmt, List.append_assoc, List.singleton_append]

/-- The edge that an arrow adds to the nested chain on its left. -/
def stepEdge (tree : Stmt) (arrow : Arrow) (o : ChainOperand) : Option CatalogEdge :=
  if arrow.isReverse then ownEdge t o.stmt tree arrow.chainType
  else ownEdge t tree o.stmt arrow.chainType

/-- The edges that arrows add to the nested chain on their left. -/
def stepEdges (tree : Stmt) : List (Arrow × ChainOperand) → List CatalogEdge
  | [] => []
  | (arrow, o) :: links =>
    (stepEdge t tree arrow o).toList ++ stepEdges (linkStmts arrow tree o.stmt) links

theorem chainEdges_linkOperands (tree : Stmt) (links : List (Arrow × ChainOperand)) :
    chainEdges t (linkOperands tree links) = chainEdges t tree ++ stepEdges t tree links := by
  induction links generalizing tree with
  | nil => simp [linkOperands, stepEdges]
  | cons l links ih =>
    obtain ⟨arrow, o⟩ := l
    have hlink : chainEdges t (linkStmts arrow tree o.stmt) =
        chainEdges t tree ++ (stepEdge t tree arrow o).toList := by
      unfold linkStmts stepEdge
      split_ifs <;> simp [chainEdges, ChainOperand.chainEdges_stmt]
    rw [linkOperands, ih, hlink, stepEdges, List.append_assoc]

/-- An arrow needs a resource on both sides; on the left of a nested chain there is none. -/
theorem stepEdge_eq (tree : Stmt) (arrow : Arrow) (o : ChainOperand) :
    stepEdge t tree arrow o =
      match if arrow.isReverse then refOf t tree else refOf t (chainEnd tree), o.ref t with
      | some a, some b => some (arrow.edge a b)
      | _, _ => none := by
  unfold stepEdge ownEdge Arrow.edge ChainOperand.ref
  split_ifs with hrev
  · rw [ChainOperand.chainEnd_stmt]
    cases refOf t o.stmt <;> cases refOf t tree <;> simp
  · cases refOf t (chainEnd tree) <;> cases refOf t o.stmt <;> simp

theorem length_stepEdges_le (tree : Stmt) (links : List (Arrow × ChainOperand)) :
    (stepEdges t tree links).length ≤ links.length := by
  induction links generalizing tree with
  | nil => exact le_rfl
  | cons l links ih =>
    have hrest := ih (linkStmts l.1 tree l.2.stmt)
    have hstep : (stepEdge t tree l.1 l.2).toList.length ≤ 1 := by
      cases stepEdge t tree l.1 l.2 <;> simp
    rw [stepEdges, List.length_append, List.length_cons]
    omega

theorem length_linkEdges (left right : ChainOperand) (arrow : Arrow) :
    (linkEdges t left arrow right).length = (left.titles t).length * (right.titles t).length := by
  simp [linkEdges, List.length_flatMap]

variable {t}

theorem le_length_adjacentEdges {o : ChainOperand} {links : List (Arrow × ChainOperand)}
    (ho : o.titles t ≠ []) (hlinks : ∀ l ∈ links, l.2.titles t ≠ []) :
    links.length ≤ (adjacentEdges t o links).length := by
  induction links generalizing o with
  | nil => exact le_rfl
  | cons l links ih =>
    have hl := hlinks l List.mem_cons_self
    have hrest := ih hl fun l' hl' ↦ hlinks l' (List.mem_cons_of_mem _ hl')
    have hone : 1 ≤ (o.titles t).length * (l.2.titles t).length :=
      Nat.mul_pos (List.length_pos_iff.2 ho) (List.length_pos_iff.2 hl)
    rw [adjacentEdges, List.length_append, length_linkEdges, List.length_cons]
    omega

/-- If there is only one edge for each arrow, then all operands have one title. -/
theorem length_titles_of_length_adjacentEdges {o : ChainOperand}
    {links : List (Arrow × ChainOperand)} (ho : o.titles t ≠ [])
    (hlinks : ∀ l ∈ links, l.2.titles t ≠ []) (hne : links ≠ [])
    (hlen : (adjacentEdges t o links).length = links.length) :
    (o.titles t).length = 1 ∧ ∀ l ∈ links, (l.2.titles t).length = 1 := by
  induction links generalizing o with
  | nil => exact absurd rfl hne
  | cons l links ih =>
    have hl := hlinks l List.mem_cons_self
    have hrest : ∀ l' ∈ links, l'.2.titles t ≠ [] := fun l' hl' ↦
      hlinks l' (List.mem_cons_of_mem _ hl')
    have hle := le_length_adjacentEdges hl hrest
    have hone : 1 ≤ (o.titles t).length * (l.2.titles t).length :=
      Nat.mul_pos (List.length_pos_iff.2 ho) (List.length_pos_iff.2 hl)
    rw [adjacentEdges, List.length_append, length_linkEdges, List.length_cons] at hlen
    have hprod : (o.titles t).length * (l.2.titles t).length = 1 := by omega
    refine ⟨Nat.eq_one_of_mul_eq_one_right hprod,
      List.forall_mem_cons.2 ⟨Nat.eq_one_of_mul_eq_one_left hprod, ?_⟩⟩
    cases links with
    | nil => simp
    | cons l' links => exact (ih hl hrest (List.cons_ne_nil _ _) (by omega)).2

/-- If every arrow adds an edge to a nested chain, then no arrow points to the left. -/
theorem isSome_ref_of_length_stepEdges {tree : Stmt} {links : List (Arrow × ChainOperand)}
    (htree : refOf t tree = none) (hlen : (stepEdges t tree links).length = links.length) :
    ∀ l ∈ links, l.1.isReverse = false ∧ (l.2.ref t).isSome := by
  induction links generalizing tree with
  | nil => simp
  | cons l links ih =>
    obtain ⟨arrow, o⟩ := l
    have hle := length_stepEdges_le t (linkStmts arrow tree o.stmt) links
    rw [stepEdges, List.length_append, List.length_cons] at hlen
    have hstep : (stepEdge t tree arrow o).isSome := by
      cases h : stepEdge t tree arrow o with
      | none =>
        rw [h] at hlen
        simp at hlen
        omega
      | some e => rfl
    have hlink : refOf t (linkStmts arrow tree o.stmt) = none := by
      unfold linkStmts
      split_ifs <;> rfl
    rw [stepEdge_eq, htree] at hstep
    refine List.forall_mem_cons.2 ⟨?_, ih hlink ?_⟩
    · cases hrev : arrow.isReverse <;> cases href : o.ref t <;> simp_all
    · cases h : stepEdge t tree arrow o <;> simp [h] at hlen <;> omega

theorem foldl_indexValue_undef (keys : List Expr) :
    keys.foldl (fun v k ↦ indexValue v (t k)) .undef = .undef := by
  induction keys with
  | nil => rfl
  | cons key keys ih => simpa [List.foldl_cons, indexValue] using ih

/-- The resource of an operand has its first title. -/
theorem ChainOperand.IsTitled.eq_of_ref {o : ChainOperand} (ho : o.IsTitled t)
    {r : String × String} (hr : o.ref t = some r) :
    ∃ titles, o.titles t = r.2 :: titles ∧ r.1 = o.type := by
  have hstring : ∀ {title : Option Expr} {s : String}, titleOf t title = some s →
      ∃ e, title = some e ∧ t e = .string s := by
    intro title s hs
    cases title with
    | none => cases hs
    | some e =>
      unfold titleOf at hs
      cases he : t e <;> simp_all
  cases o with
  | reference type element elements =>
    obtain ⟨s, hs, rfl⟩ := Option.map_eq_some_iff.1 hr
    obtain ⟨e, he, hvalue⟩ := hstring hs
    cases he
    cases element with
    | plain e =>
      refine ⟨(elements.map (·.value t)).flatMap titleTexts, ?_, rfl⟩
      change titleTexts (t e) ++ _ = _
      rw [show t e = .string s from hvalue]
      rfl
    | keyed name key keys =>
      have hundef : (AccessElement.keyed name key keys).value t = .undef := by
        rw [AccessElement.value, show t (.variable name) = .string s from hvalue]
        exact foldl_indexValue_undef keys
      exact absurd hundef (ho.2 _ List.mem_cons_self)
  | declaration decl =>
    cases hinsts : decl.instances with
    | nil => simp [ChainOperand.ref, ChainOperand.stmt, refOf, hinsts] at hr
    | cons inst insts =>
      simp only [ChainOperand.ref, ChainOperand.stmt, refOf, hinsts] at hr
      obtain ⟨s, hs, rfl⟩ := Option.map_eq_some_iff.1 hr
      obtain ⟨e, he, hvalue⟩ := hstring hs
      refine ⟨(insts.filterMap fun inst ↦ inst.title.map t).flatMap titleTexts, ?_, rfl⟩
      simp [ChainOperand.titles, ChainOperand.titleValues, hinsts, he, hvalue, titleTexts,
        Value.toText]

/-- An operand with one title that is a string. -/
def ChainOperand.IsSingle (t : Expr → Value) (o : ChainOperand) : Prop :=
  ∃ s, o.ref t = some (o.type, s) ∧ o.titles t = [s]

theorem ChainOperand.IsTitled.isSingle {o : ChainOperand} (ho : o.IsTitled t)
    (href : (o.ref t).isSome) (hlen : (o.titles t).length = 1) : o.IsSingle t := by
  obtain ⟨r, hr⟩ := Option.isSome_iff_exists.1 href
  obtain ⟨titles, htitles, htype⟩ := ho.eq_of_ref hr
  obtain rfl : titles = [] := by
    rw [htitles] at hlen
    exact List.length_eq_zero_iff.1 (by simpa using hlen)
  exact ⟨r.2, by rw [hr, ← htype], htitles⟩

theorem linkEdges_eq {left right : ChainOperand} {a b : String} (ha : left.titles t = [a])
    (hb : right.titles t = [b]) (arrow : Arrow) :
    linkEdges t left arrow right = [arrow.edge (left.type, a) (right.type, b)] := by
  simp [linkEdges, ha, hb]

/-- Arrows to the right add the edges between adjacent operands. -/
theorem stepEdges_eq_adjacentEdges {tree : Stmt} {o : ChainOperand}
    {links : List (Arrow × ChainOperand)} {a : String}
    (htree : refOf t (chainEnd tree) = some (o.type, a)) (ho : o.titles t = [a])
    (hlinks : ∀ l ∈ links, l.1.isReverse = false ∧ l.2.IsSingle t) :
    stepEdges t tree links = adjacentEdges t o links := by
  induction links generalizing tree o a with
  | nil => rfl
  | cons l links ih =>
    obtain ⟨arrow, o'⟩ := l
    obtain ⟨hrev, b, hb, hb'⟩ := hlinks _ List.mem_cons_self
    dsimp only at hrev hb hb'
    have hend : refOf t (chainEnd (linkStmts arrow tree o'.stmt)) = some (o'.type, b) := by
      rw [linkStmts, hrev, if_neg Bool.false_ne_true, chainEnd, ChainOperand.chainEnd_stmt]
      exact hb
    rw [stepEdges, stepEdge_eq, hrev, if_neg Bool.false_ne_true, htree, hb, adjacentEdges,
      linkEdges_eq ho hb', ih hend hb' fun l hl ↦ hlinks l (List.mem_cons_of_mem _ hl)]
    rfl

/-- The first arrow adds its edge, whichever way it points. -/
theorem stepEdge_first {o o' : ChainOperand} {a b : String} (ha : o.ref t = some (o.type, a))
    (hb : o'.ref t = some (o'.type, b)) (arrow : Arrow) :
    stepEdge t o.stmt arrow o' = some (arrow.edge (o.type, a) (o'.type, b)) := by
  rw [stepEdge_eq, hb, ChainOperand.chainEnd_stmt, ite_self]
  rw [ChainOperand.ref] at ha
  rw [ha]

end Titles

/-! ### What the code adds for a chain -/

namespace ResourceChain

variable (t : Expr → Value) (c : ResourceChain)

/-- Conversion and execution of a chain execute every operand once and add exactly the edges
between adjacent operands. -/
def AddsAdjacentEdges (catalog : Catalog) : Prop :=
  ∃ s, convertChain c.nodes = some s ∧ ∃ n, ∀ fuel ≥ n, ∃ log edges,
    (execStmt s).run (chainLog t fuel) ⟨[], catalog, []⟩ = .ok ((), log) ∧
      log.executed.Perm (c.operands.map (·.stmt)) ∧
      log.catalog = { catalog with edges := catalog.edges ++ edges } ∧
      edges.Perm (adjacentEdges t c.first c.links)

/-- At most 16 arrows, which point to the right from the second one on; one title, a string, for
each operand; and if the first arrow points to the left, then it is the only one or its operands
are the same resource. -/
structure IsReadAsWritten : Prop where
  arrows : c.links.length ≤ 16
  titles : ∀ o ∈ c.operands, o.IsSingle t
  rest : ∀ l ∈ c.rest, l.1.isReverse = false
  second : c.second.1.isReverse = true → c.rest = [] ∨ c.first.ref t = c.second.2.ref t

variable {t c}

theorem stepEdges_eq_of_isReadAsWritten (hc : c.IsReadAsWritten t) :
    stepEdges t c.first.stmt c.links = adjacentEdges t c.first c.links := by
  obtain ⟨a, ha, ha'⟩ := hc.titles c.first List.mem_cons_self
  obtain ⟨b, hb, hb'⟩ := hc.titles c.second.2 (by simp [operands, links])
  have hrest : ∀ l ∈ c.rest, l.1.isReverse = false ∧ l.2.IsSingle t := fun l hl ↦
    ⟨hc.rest l hl, hc.titles l.2 (by
      simp only [operands, links, List.map_cons, List.mem_cons, List.mem_map]
      exact .inr (.inr ⟨l, hl, rfl⟩))⟩
  have hfirst := stepEdge_first ha hb c.second.1
  rw [links, stepEdges, hfirst, adjacentEdges, linkEdges_eq ha' hb', Option.toList_some]
  congr 1
  cases hrev : c.second.1.isReverse with
  | false =>
    refine stepEdges_eq_adjacentEdges ?_ hb' hrest
    rw [linkStmts, hrev, if_neg Bool.false_ne_true, chainEnd, ChainOperand.chainEnd_stmt]
    exact hb
  | true =>
    rcases hc.second hrev with hnil | hsame
    · rw [hnil]
      rfl
    · refine stepEdges_eq_adjacentEdges ?_ hb' hrest
      rw [linkStmts, hrev, if_pos rfl, chainEnd, ChainOperand.chainEnd_stmt]
      exact hsame.trans hb

/-- The parts of a sum that reaches its bound reach their bounds. -/
theorem isSome_and_length_of_length_stepEdges {tree : Stmt} {arrow : Arrow} {o : ChainOperand}
    {links : List (Arrow × ChainOperand)}
    (h : (stepEdges t tree ((arrow, o) :: links)).length = links.length + 1) :
    (stepEdge t tree arrow o).isSome ∧
      (stepEdges t (linkStmts arrow tree o.stmt) links).length = links.length := by
  have hle := length_stepEdges_le t (linkStmts arrow tree o.stmt) links
  rw [stepEdges, List.length_append] at h
  cases hstep : stepEdge t tree arrow o with
  | none =>
    rw [hstep, Option.toList_none, List.length_nil] at h
    omega
  | some e =>
    rw [hstep, Option.toList_some, List.length_singleton] at h
    exact ⟨rfl, by omega⟩

theorem isReadAsWritten_of_perm (htitled : ∀ o ∈ c.operands, o.IsTitled t)
    (hlen : c.links.length ≤ 16)
    (hperm : (stepEdges t c.first.stmt c.links).Perm (adjacentEdges t c.first c.links)) :
    c.IsReadAsWritten t := by
  obtain ⟨first, ⟨arrow, second⟩, rest⟩ := c
  simp only [operands, links, List.map_cons, List.forall_mem_cons, List.forall_mem_map]
    at htitled hlen hperm
  obtain ⟨hfirst, hsecond, hothers⟩ := htitled
  have hlinks : ∀ l ∈ (arrow, second) :: rest, l.2.titles t ≠ [] :=
    List.forall_mem_cons.2 ⟨hsecond.1, fun l hl ↦ (hothers l hl).1⟩
  have hle := length_stepEdges_le t first.stmt ((arrow, second) :: rest)
  have hge := le_length_adjacentEdges hfirst.1 hlinks
  have heq := hperm.length_eq
  obtain ⟨hone, hones⟩ := length_titles_of_length_adjacentEdges hfirst.1 hlinks
    (List.cons_ne_nil _ _) (by omega)
  have hall : (stepEdges t first.stmt ((arrow, second) :: rest)).length = rest.length + 1 := by
    rw [List.length_cons] at *; omega
  obtain ⟨hstep, hsteps⟩ := isSome_and_length_of_length_stepEdges hall
  have hrest := isSome_ref_of_length_stepEdges
    (by unfold linkStmts; split_ifs <;> rfl) hsteps
  have hrefs : (first.ref t).isSome ∧ (second.ref t).isSome := by
    rw [stepEdge_eq, ChainOperand.chainEnd_stmt, ite_self, ← ChainOperand.ref] at hstep
    cases h : first.ref t <;> cases h' : second.ref t <;> simp_all
  obtain ⟨a, ha, ha'⟩ := hfirst.isSingle hrefs.1 hone
  obtain ⟨b, hb, hb'⟩ := hsecond.isSingle hrefs.2 (hones _ List.mem_cons_self)
  have hsingle : ∀ l ∈ rest, l.1.isReverse = false ∧ l.2.IsSingle t := fun l hl ↦
    ⟨(hrest l hl).1, (hothers l hl).isSingle (hrest l hl).2 (hones l (List.mem_cons_of_mem _ hl))⟩
  refine ⟨hlen, ?_, fun l hl ↦ (hsingle l hl).1, fun hrev ↦ ?_⟩
  · simp only [operands, links, List.map_cons, List.forall_mem_cons, List.forall_mem_map]
    exact ⟨⟨a, ha, ha'⟩, ⟨b, hb, hb'⟩, fun l hl ↦ (hsingle l hl).2⟩
  · cases rest with
    | nil => exact .inl rfl
    | cons l rest =>
      obtain ⟨arrow', o⟩ := l
      obtain ⟨⟨hrev', d, hd, hd'⟩, hrest'⟩ := List.forall_mem_cons.1 hsingle
      -- the nested chain ends at the first operand, so the second arrow starts there
      have hend : refOf t (chainEnd (linkStmts arrow first.stmt second.stmt)) =
          some (first.type, a) := by
        rw [linkStmts, show arrow.isReverse = true from hrev, if_pos rfl, chainEnd,
          ChainOperand.chainEnd_stmt]
        exact ha
      have hleft : stepEdges t first.stmt ((arrow, second) :: (arrow', o) :: rest) =
          [arrow.edge (first.type, a) (second.type, b)] ++
            ([arrow'.edge (first.type, a) (o.type, d)] ++ adjacentEdges t o rest) := by
        rw [stepEdges, stepEdge_first ha hb, stepEdges_eq_adjacentEdges hend ha' hsingle,
          adjacentEdges, linkEdges_eq ha' hd']
        rfl
      have hright : adjacentEdges t first ((arrow, second) :: (arrow', o) :: rest) =
          [arrow.edge (first.type, a) (second.type, b)] ++
            ([arrow'.edge (second.type, b) (o.type, d)] ++ adjacentEdges t o rest) := by
        rw [adjacentEdges, adjacentEdges, linkEdges_eq ha' hb', linkEdges_eq hb' hd']
      rw [hleft, hright] at hperm
      have hedge := (List.perm_append_right_iff _).1 ((List.perm_append_left_iff _).1 hperm)
      have hsame := List.singleton_perm_singleton.1 hedge
      simp only [Arrow.edge, show arrow'.isReverse = false from hrev', Bool.false_eq_true,
        if_false, CatalogEdge.mk.injEq] at hsame
      exact .inr (by rw [ha, hb, hsame.1, hsame.2.1])

/-! ### At most 16 edges -/

theorem chainEdges_convertPart {nodes : List ChainNode} {s : Stmt}
    (h : convertPart nodes = some s) :
    chainEdges t s = [] := by
  have hread : ∀ (nodes : List ChainNode) (p : ChainPart), (∀ s ∈ p.curStmt, chainEdges t s = []) →
      ∀ s ∈ (nodes.foldl ChainPart.read p).curStmt, chainEdges t s = [] := by
    intro nodes
    induction nodes with
    | nil => exact fun p hp ↦ hp
    | cons node nodes ih =>
      intro p hp
      refine ih (p.read node) ?_
      cases node with
      | resourceType decl =>
        rintro s hs
        cases hs
        rfl
      | access elements => cases elements <;> exact hp
      | _ => exact hp
  have hcur := hread nodes ⟨none, none, none⟩ nofun
  unfold convertPart at h
  dsimp only at h
  split at h
  · next s' _ _ hs' =>
    cases h
    exact hcur s hs'
  · cases h
    rfl
  · cases h

theorem length_chainEdges_linkStmts (arrow : Arrow) (left cur : Stmt) :
    (chainEdges t (linkStmts arrow left cur)).length ≤
      (chainEdges t left).length + (chainEdges t cur).length + 1 := by
  have hown : ∀ l r type, (ownEdge t l r type).toList.length ≤ 1 := by
    intro l r type
    cases ownEdge t l r type <;> simp
  unfold linkStmts
  split_ifs
  · have := hown cur left arrow.chainType
    simp only [chainEdges, List.length_append]
    omega
  · have := hown left cur arrow.chainType
    simp only [chainEdges, List.length_append]
    omega

/-- There is at most one edge for each arrow that is noted. -/
theorem length_chainEdges_linkParts {chain prev : Option Stmt}
    {parts : List (Arrow × List ChainNode)} {s : Stmt} {k : ℕ}
    (hchain : ∀ s ∈ chain, (chainEdges t s).length ≤ k) (hprev : ∀ s ∈ prev, chainEdges t s = [])
    (h : linkParts chain prev parts = some s) : (chainEdges t s).length ≤ k + parts.length := by
  induction parts generalizing chain prev k with
  | nil => exact (hchain s h).trans (Nat.le_add_right _ _)
  | cons part parts ih =>
    rw [linkParts] at h
    have hnext : ∀ chain' prev', linkPart chain prev part = (chain', prev') →
        (∀ s ∈ chain', (chainEdges t s).length ≤ k + 1) ∧ ∀ s ∈ prev', chainEdges t s = [] := by
      intro chain' prev' hlink
      unfold linkPart at hlink
      split at hlink
      · next _ _ cur before hcur =>
        cases hlink
        have hcur' := chainEdges_convertPart (t := t) hcur
        have hleft : (chainEdges t (chain.getD before)).length ≤ k := by
          cases chain with
          | none => simp [hprev before rfl]
          | some s => exact hchain s rfl
        have hlength := length_chainEdges_linkStmts (t := t) part.1 (chain.getD before) cur
        rw [hcur', List.length_nil] at hlength
        exact ⟨by rintro _ ⟨⟩; omega, by rintro _ ⟨⟩; exact hcur'⟩
      · cases hlink
        exact ⟨fun s hs ↦ (hchain s hs).trans (Nat.le_succ k), hprev⟩
    obtain ⟨hchain', hprev'⟩ := hnext _ _ rfl
    have := ih hchain' hprev' h
    rw [List.length_cons]
    omega

/-- For at most 16 arrows the edges that are added are those of the steps. -/
theorem perm_of_addsAdjacentEdges {catalog : Catalog} (hlen : c.links.length ≤ 16)
    (h : c.AddsAdjacentEdges t catalog) :
    (stepEdges t c.first.stmt c.links).Perm (adjacentEdges t c.first c.links) := by
  obtain ⟨s, hs, m, hall⟩ := h
  obtain rfl := Option.some.inj ((convertChain_nodes hlen).symm.trans hs)
  obtain ⟨n, hrun⟩ := run_execStmt_chain t (linkOperands c.first.stmt c.links)
  obtain ⟨log, edges, hlog, -, hcatalog, hperm⟩ := hall (max n m) (le_max_right n m)
  obtain ⟨log', hlog', hext⟩ := hrun (max n m) (le_max_left n m) ⟨[], catalog, []⟩
  obtain rfl : log = log' := by simpa using hlog.symm.trans hlog'
  rw [hext.catalog, chainEdges_linkOperands, ChainOperand.chainEdges_stmt,
    List.nil_append] at hcatalog
  have hsame : edges = stepEdges t c.first.stmt c.links := by simpa using hcatalog.symm
  exact hsame ▸ hperm

/-- With more than 16 arrows there are too few edges. -/
theorem not_addsAdjacentEdges_of_lt {catalog : Catalog} (htitled : ∀ o ∈ c.operands, o.IsTitled t)
    (hlen : 16 < c.links.length) : ¬ c.AddsAdjacentEdges t catalog := by
  rintro ⟨s, hs, m, hall⟩
  obtain ⟨n, hrun⟩ := run_execStmt_chain t s
  obtain ⟨log, edges, hlog, -, hcatalog, hperm⟩ := hall (max n m) (le_max_right n m)
  obtain ⟨log', hlog', hext⟩ := hrun (max n m) (le_max_left n m) ⟨[], catalog, []⟩
  obtain rfl : log = log' := by simpa using hlog.symm.trans hlog'
  rw [hext.catalog] at hcatalog
  obtain rfl : edges = chainEdges t s := by simpa using hcatalog.symm
  have hnoted := length_chainEdges_linkParts (t := t) (k := 0) (by simp)
    (fun s' hs' ↦ chainEdges_convertPart hs') hs
  have hparts := length_splitArrows_le 16 c.nodes
  have hmany := le_length_adjacentEdges (htitled _ List.mem_cons_self).1
    fun l hl ↦ (htitled _ (List.mem_cons_of_mem _ (List.mem_map_of_mem hl))).1
  have := hperm.length_eq
  omega

/-- The edges between adjacent operands are added exactly if the chain is read as it is
written. -/
theorem addsAdjacentEdges_iff (t : Expr → Value) (c : ResourceChain)
    (htitled : ∀ o ∈ c.operands, o.IsTitled t) (catalog : Catalog) :
    c.AddsAdjacentEdges t catalog ↔ c.IsReadAsWritten t := by
  constructor
  · intro h
    rcases le_or_gt c.links.length 16 with hlen | hlen
    · exact isReadAsWritten_of_perm htitled hlen (perm_of_addsAdjacentEdges hlen h)
    · exact absurd h (not_addsAdjacentEdges_of_lt htitled hlen)
  · intro hc
    obtain ⟨n, hrun⟩ := run_execStmt_chain t (linkOperands c.first.stmt c.links)
    refine ⟨_, convertChain_nodes hc.arrows, n, fun fuel hfuel ↦ ?_⟩
    obtain ⟨log, hlog, hext⟩ := hrun fuel hfuel ⟨[], catalog, []⟩
    refine ⟨log, _, hlog, ?_, hext.catalog, ?_⟩
    · have hoperands := chainOperands_linkOperands c.first.stmt c.links
      rw [ChainOperand.chainOperands_stmt] at hoperands
      rw [hext.executed, List.nil_append]
      simpa [operands, Function.comp_def] using hoperands
    · rw [chainEdges_linkOperands, ChainOperand.chainEdges_stmt, List.nil_append,
        stepEdges_eq_of_isReadAsWritten hc]

/-- The values of literals. -/
def literalValue : Expr → Value
  | .value v => v
  | _ => Value.undef

/-- A reference with one literal title. -/
def literalRef (type title : String) : ChainOperand :=
  .reference type (.plain (.value (.string title))) []

theorem isTitled_literalRef (type title : String) :
    (literalRef type title).IsTitled literalValue := by
  constructor
  · exact List.cons_ne_nil _ _
  · intro v hv
    rw [List.mem_singleton.1 hv]
    exact nofun

/-- A chain of three references with arrows to the right. -/
theorem addsAdjacentEdges_iff_three :
    AddsAdjacentEdges literalValue ⟨literalRef "Notify" "a", (.before, literalRef "Notify" "b"),
      [(.notify, literalRef "Notify" "c")]⟩ (Catalog.create none none) := by
  refine (addsAdjacentEdges_iff _ _ ?_ _).2 ⟨by decide, ?_, by simp [Arrow.isReverse], nofun⟩
  · simp [operands, links, isTitled_literalRef]
  · simp only [operands, links, List.map_cons, List.map_nil, List.forall_mem_cons]
    exact ⟨⟨"a", rfl, rfl⟩, ⟨"b", rfl, rfl⟩, ⟨"c", rfl, rfl⟩, by simp⟩

/-- In `Notify['a'] <- Notify['b'] <- Notify['c']` the second arrow adds no edge. -/
theorem not_addsAdjacentEdges_reversed :
    ¬ ∀ (t : Expr → Value) (c : ResourceChain) (catalog : Catalog),
      (∀ o ∈ c.operands, o.IsTitled t) → c.AddsAdjacentEdges t catalog := by
  intro h
  have hperm := perm_of_addsAdjacentEdges (by decide) (h literalValue
    ⟨literalRef "Notify" "a", (.beforeReversed, literalRef "Notify" "b"),
      [(.beforeReversed, literalRef "Notify" "c")]⟩ (Catalog.create none none)
    (by simp [operands, links, isTitled_literalRef]))
  exact absurd hperm.length_eq (by decide)

end ResourceChain

/-! ### Chains in a world -/

section World

variable (w : World)

/-- The edges of the catalog under construction. -/
def Env.edges (env : Env) : List CatalogEdge := (env.catalog.map (·.edges)).getD []

/-- The expression of the title of an operand. -/
def titleExpr : Stmt → Option Expr
  | .expression (.resourceRef _ title) => title
  | .resource decl => decl.instances.head?.bind (·.title)
  | _ => none

/-- In the environments of `I` there is a catalog, the titles of a chain are evaluated as by `t`,
and neither titles nor operands add edges themselves. -/
structure World.Evaluates (t : Expr → Value) (s : Stmt) (I : Env → Prop) : Prop where
  catalog : ∀ env, I env → env.catalog.isSome
  title : ∀ o ∈ chainOperands s, ∀ e ∈ titleExpr o, ∀ fuel env v env', I env →
    w.evalExpr fuel e env = .ok (v, env') → v = t e ∧ I env' ∧ env'.edges = env.edges
  operand : ∀ o ∈ chainOperands s, ∀ fuel env env', I env →
    w.execStmt fuel o env = .ok ((), env') → I env' ∧ env'.edges = env.edges
  edge : ∀ env e, I env → I { env with catalog := env.catalog.map (·.addEdge e) }
  emit : ∀ env d, I env → I (env.emit d)

variable {w} {t : Expr → Value} {I : Env → Prop}

theorem Env.edges_emit (env : Env) (d : Diagnostic) : (env.emit d).edges = env.edges := by
  unfold Env.emit
  cases d.severity <;> rfl

theorem World.execStmt_chain (fuel : ℕ) (left right : Stmt) (type : ChainType) (env : Env) :
    w.execStmt (fuel + 1) (.chain left right type) env =
      (execChain left right type).run (w.quietHandler fuel) env := by
  rw [World.execStmt, World.run_quiet, PuppetC.execStmt, call, Prog.run_perform,
    ← World.run_quiet]
  rfl

theorem chainEnd_mem_chainOperands (s : Stmt) : chainEnd s ∈ chainOperands s := by
  induction s using chainOperands.induct with
  | case1 left right type _ ihr =>
    rw [chainEnd, chainOperands]
    exact List.mem_append_right _ ihr
  | case2 s hs =>
    rw [chainEnd, chainOperands]
    · exact List.mem_singleton_self s
    · exact hs
    · exact hs

theorem mem_chainOperands_of_titleExpr {s : Stmt} {e : Expr} (h : titleExpr s = some e) :
    s ∈ chainOperands s := by
  cases s <;> first
    | cases h
    | exact List.mem_singleton_self _

namespace World.Evaluates

variable {s o : Stmt} {fuel : ℕ} {env env' : Env}

theorem mono {s' : Stmt} (h : w.Evaluates t s I)
    (hmem : ∀ o ∈ chainOperands s', o ∈ chainOperands s) : w.Evaluates t s' I :=
  { h with
    title := fun o ho ↦ h.title o (hmem o ho)
    operand := fun o ho ↦ h.operand o (hmem o ho) }

theorem run_chainTitle (h : w.Evaluates t s I)
    (ho : ∀ e ∈ titleExpr o, o ∈ chainOperands s) {title : Option Expr}
    (htitle : title = titleExpr o) {r : Option String} (henv : I env)
    (hrun : (chainTitle title).run (w.quietHandler fuel) env = .ok (r, env')) :
    r = titleOf t title ∧ I env' ∧ env'.edges = env.edges := by
  cases title with
  | none =>
    cases hrun
    exact ⟨rfl, henv, rfl⟩
  | some e =>
    obtain ⟨v, env₁, heval, hrest⟩ := Prog.run_bind_eq_ok.1 hrun
    rw [← World.run_quiet, ← World.evalExpr] at heval
    obtain ⟨rfl, hI, hedges⟩ :=
      h.title o (ho e htitle.symm) e htitle.symm fuel env v env₁ henv heval
    rw [titleOf]
    cases ht : t e <;> rw [ht] at hrest <;> cases hrest <;> exact ⟨rfl, hI, hedges⟩

theorem run_chainRef (h : w.Evaluates t s I) (ho : ∀ e ∈ titleExpr o, o ∈ chainOperands s)
    {r : Option (String × String)} (henv : I env)
    (hrun : (chainRef o).run (w.quietHandler fuel) env = .ok (r, env')) :
    r = refOf t o ∧ I env' ∧ env'.edges = env.edges := by
  unfold chainRef at hrun
  split at hrun
  · obtain ⟨title, env₁, htitle, hrest⟩ := Prog.run_bind_eq_ok.1 hrun
    cases hrest
    obtain ⟨rfl, hI, hedges⟩ := h.run_chainTitle ho rfl henv htitle
    exact ⟨rfl, hI, hedges⟩
  · next decl =>
    rw [refOf]
    cases hinsts : decl.instances with
    | nil =>
      rw [hinsts] at hrun
      cases hrun
      exact ⟨rfl, henv, rfl⟩
    | cons inst insts =>
      rw [hinsts] at hrun
      obtain ⟨title, env₁, htitle, hrest⟩ := Prog.run_bind_eq_ok.1 hrun
      cases hrest
      obtain ⟨rfl, hI, hedges⟩ := h.run_chainTitle ho (by simp [titleExpr, hinsts]) henv htitle
      exact ⟨rfl, hI, hedges⟩
  · next hexpr hdecl =>
    cases hrun
    refine ⟨?_, henv, rfl⟩
    unfold refOf
    split
    · exact absurd rfl (hexpr _ _)
    · exact absurd rfl (hdecl _)
    · rfl

/-- The edges that the execution of a nested chain adds to the catalog. -/
theorem edges_execStmt (h : w.Evaluates t s I) (henv : I env)
    (hrun : w.execStmt fuel s env = .ok ((), env')) :
    I env' ∧ env'.edges = env.edges ++ chainEdges t s := by
  induction s using chainOperands.induct generalizing fuel env env' with
  | case1 left right type ihl ihr =>
    cases fuel with
    | zero => cases hrun
    | succ fuel =>
      rw [World.execStmt_chain] at hrun
      unfold execChain at hrun
      obtain ⟨_, env₁, hl, hrun⟩ := Prog.run_bind_eq_ok.1 hrun
      obtain ⟨_, env₂, hr, hrun⟩ := Prog.run_bind_eq_ok.1 hrun
      obtain ⟨catalog, env₃, hread, hrun⟩ := Prog.run_bind_eq_ok.1 hrun
      rw [← World.run_quiet, ← World.execStmt] at hl hr
      have hleft : ∀ o ∈ chainOperands left, o ∈ chainOperands (.chain left right type) :=
        fun o ho ↦ List.mem_append_left _ ho
      have hright : ∀ o ∈ chainOperands right, o ∈ chainOperands (.chain left right type) :=
        fun o ho ↦ List.mem_append_right _ ho
      obtain ⟨hI₁, hedges₁⟩ := ihl (h.mono hleft) henv hl
      obtain ⟨hI₂, hedges₂⟩ := ihr (h.mono hright) hI₁ hr
      have hread' : catalog = env₂.catalog ∧ env₃ = env₂ := by
        cases fuel <;> cases hread <;> exact ⟨rfl, rfl⟩
      obtain ⟨rfl, rfl⟩ := hread'
      rw [if_pos (h.catalog _ hI₂)] at hrun
      obtain ⟨source, env₄, hsource, hrun⟩ := Prog.run_bind_eq_ok.1 hrun
      obtain ⟨target, env₅, htarget, hrun⟩ := Prog.run_bind_eq_ok.1 hrun
      obtain ⟨rfl, hI₄, hedges₄⟩ :=
        h.run_chainRef (fun _ _ ↦ hleft _ (chainEnd_mem_chainOperands left)) hI₂ hsource
      obtain ⟨rfl, hI₅, hedges₅⟩ :=
        h.run_chainRef (fun _ he ↦ hright _ (mem_chainOperands_of_titleExpr he)) hI₄ htarget
      have hsame : env₅.edges = env.edges ++ (chainEdges t left ++ chainEdges t right) := by
        rw [hedges₅, hedges₄, hedges₂, hedges₁, List.append_assoc]
      have hprim : ∀ o : EnvPrim Unit, (perform o).run (w.quietHandler fuel) env₅ =
          o.handle w.factsDb env₅ := by
        intro o
        rw [perform, Prog.run_perform]
        cases fuel <;> rfl
      have hnone : (PuppetC.emit .note "Could not extract resource references from chain").run
          (w.quietHandler fuel) env₅ = .ok ((), env') → I env' ∧ env'.edges = env₅.edges := by
        intro h'
        rw [PuppetC.emit, hprim] at h'
        cases h'
        exact ⟨h.emit _ _ hI₅, Env.edges_emit _ _⟩
      rw [chainEdges]
      unfold ownEdge
      cases hsource : refOf t (chainEnd left) with
      | none =>
        rw [hsource] at hrun
        obtain ⟨hI, hedges⟩ := hnone hrun
        exact ⟨hI, by simpa [hedges] using hsame⟩
      | some source =>
        cases htarget : refOf t right with
        | none =>
          rw [hsource, htarget] at hrun
          obtain ⟨hI, hedges⟩ := hnone hrun
          exact ⟨hI, by simpa [hedges] using hsame⟩
        | some target =>
          rw [hsource, htarget] at hrun
          have hrun' := (hprim _).symm.trans hrun
          cases hrun'
          refine ⟨h.edge _ _ hI₅, ?_⟩
          obtain ⟨c, hc⟩ := Option.isSome_iff_exists.1 (h.catalog _ hI₅)
          rw [← List.append_assoc, ← hsame]
          simp only [Env.edges, hc, Catalog.addEdge]
          cases type <;> rfl
  | case2 s hs =>
    have hself : s ∈ chainOperands s := by
      rw [chainOperands]
      · exact List.mem_singleton_self s
      · exact hs
    obtain ⟨hI, hedges⟩ := h.operand s hself fuel env env' henv hrun
    refine ⟨hI, ?_⟩
    rw [hedges, chainEdges, List.append_nil]
    exact hs

end World.Evaluates

/-- In a world a chain that is read as it is written adds the edges between adjacent operands. -/
theorem ResourceChain.IsReadAsWritten.edges_execStmt {c : ResourceChain}
    (hc : c.IsReadAsWritten t) {s : Stmt} (hs : convertChain c.nodes = some s)
    (h : w.Evaluates t s I) {fuel : ℕ} {env env' : Env} (henv : I env)
    (hrun : w.execStmt fuel s env = .ok ((), env')) :
    env'.edges = env.edges ++ adjacentEdges t c.first c.links := by
  obtain rfl := Option.some.inj ((convertChain_nodes hc.arrows).symm.trans hs)
  rw [(h.edges_execStmt henv hrun).2, chainEdges_linkOperands, ChainOperand.chainEdges_stmt,
    List.nil_append, stepEdges_eq_of_isReadAsWritten hc]

end World

end PuppetC
