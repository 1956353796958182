import PuppetC.Interp.Balance
import PuppetC.Interp.Program

/-!
# The queue of defined types

An instance of a defined type is queued where it is declared, and its body runs when the
statement list around the declaration ends. So it runs exactly once, and in a scope whose parent
still exists, if it is declared while a statement list is executed and its scope outlasts that
list. Bodies of functions, and of defined types that a collector realizes, are no statement
lists: an instance that is declared there is run when the scope of the body is gone, and one
that a top-level assignment declares for a node is never run.

The events of a compile are read as accounts: every instance queued is either started or still
waiting.

## Main definitions

* `Ledger`: the accounts balance, and instances declared in the right place are run in a live
  scope.
* `Continues`, `Advances`, `FlushedTo`: what happens to scopes, queue and ledger.

## Main results

* `Advances.of_quiet`, `Advances.structured`: one operation, and a structured program.
* `deferred_defines_run_once`: the instances declared in the right place run exactly once, in a
  live scope, and every statement list leaves the queue as it found it.
-/

namespace PuppetC

/-! ### Accounts -/

/-- The instances that were queued. -/
def issued (es : List DeferredEvent) : List (ℕ × Bool) :=
  es.filterMap fun
    | .queued t b => some (t, b)
    | .executed .. => none

/-- The instances whose bodies were started. -/
def ran (es : List DeferredEvent) : List (ℕ × Bool) :=
  es.filterMap fun
    | .queued .. => none
    | .executed t b _ => some (t, b)

/-- The instances in a queue whose bodies were not started. -/
def waiting (ms : List DeferredMark) : List (ℕ × Bool) :=
  (ms.filter fun m ↦ !m.started).map fun m ↦ (m.ticket, m.placed)

/-- The marks of the queue. -/
def Env.marksQueued (env : Env) : List DeferredMark :=
  env.deferredDefines.map (·.toDeferredMark)

theorem Env.get_deferredCount (env : Env) :
    EnvField.deferredCount.get env = env.marksQueued.length :=
  (List.length_map ..).symm

/-- Which cells still exist, and which are to be destroyed. -/
def Env.cells (env : Env) : List (Bool × Bool) :=
  env.scopes.map fun c ↦ (c.live, c.temporary)

/-- The accounts of the queue: instances are numbered as they are queued, each is either started
or waiting, and those declared in the right place were started in a live scope. -/
structure Ledger (env : Env) : Prop where
  tickets : (issued env.events).map Prod.fst = List.range env.tickets
  balance : (issued env.events).Perm (ran env.events ++ waiting env.marksQueued)
  live : ∀ t l, .executed t true l ∈ env.events → l = true

theorem Ledger.congr {env env' : Env} (hl : Ledger env)
    (hqueue : env'.marksQueued = env.marksQueued) (hevents : env'.events = env.events)
    (htickets : env'.tickets = env.tickets) : Ledger env' where
  tickets := by rw [hevents, htickets]; exact hl.tickets
  balance := by rw [hevents, hqueue]; exact hl.balance
  live := by rw [hevents]; exact hl.live

@[simp] theorem issued_append (es es' : List DeferredEvent) :
    issued (es ++ es') = issued es ++ issued es' := List.filterMap_append ..

@[simp] theorem ran_append (es es' : List DeferredEvent) :
    ran (es ++ es') = ran es ++ ran es' := List.filterMap_append ..

@[simp] theorem waiting_append (ms ms' : List DeferredMark) :
    waiting (ms ++ ms') = waiting ms ++ waiting ms' := by
  simp [waiting]

theorem waiting_eq_nil {ms : List DeferredMark} (h : ∀ m ∈ ms, m.started = true) :
    waiting ms = [] := by
  simpa [waiting, List.filter_eq_nil_iff] using h

/-! ### Scopes that last -/

theorem Env.outlasts_cell (env : Env) (start n : ℕ) :
    env.outlasts start (.cell n) = true ↔
      ∃ temporary, env.cells[n]? = some (true, temporary) ∧ (temporary = true → n < start) := by
  simp only [outlasts, cells, List.getElem?_map]
  cases env.scopes[n]? with
  | none => simp
  | some c =>
    cases hl : c.live <;> cases ht : c.temporary <;> simp [hl, ht]

theorem Env.isLive_of_outlasts {env : Env} {start : ℕ} {id : ScopeId}
    (h : env.outlasts start id = true) : env.isLive id = true := by
  cases id with
  | global => rfl
  | node => rfl
  | cell n =>
    unfold Env.outlasts at h
    cases hc : env.scopes[n]? with
    | none => simp [hc] at h
    | some c =>
      simp only [hc, Bool.and_eq_true] at h
      simp [Env.isLive, Env.scope, hc, h.1]

theorem Env.isLive_of_lasts {env : Env} {id : ScopeId} (h : env.lasts id = true) :
    env.isLive id = true := by
  unfold Env.lasts at h
  cases hs : env.listStarts with
  | nil => simp [hs] at h
  | cons start rest => exact Env.isLive_of_outlasts (by simpa [hs] using h)

/-- A scope outlasts a list still when no cell that was there has changed. -/
theorem Env.outlasts_of_prefix {env env' : Env} (h : env.cells <+: env'.cells) {start : ℕ}
    {id : ScopeId} (hl : env.outlasts start id = true) : env'.outlasts start id = true := by
  cases id with
  | global => rfl
  | node => rfl
  | cell n =>
    obtain ⟨temporary, hc, ht⟩ := (env.outlasts_cell start n).1 hl
    obtain ⟨hn, -⟩ := List.getElem?_eq_some_iff.1 hc
    refine (env'.outlasts_cell start n).2 ⟨temporary, ?_, ht⟩
    rw [← hc, List.prefix_iff_getElem?.1 h n hn, List.getElem?_eq_getElem hn]

/-! ### What happens in a program -/

/-- The lists are as before, no cell that was there has changed, and the ledger is kept. -/
structure Continues (env env' : Env) : Prop where
  listStarts : env'.listStarts = env.listStarts
  kept : env.cells <+: env'.cells
  ledger : Ledger env → Ledger env'

/-- An instance that waits, and whose scope lasts if it was declared in the right place. -/
def DeferredMark.Waits (env : Env) (m : DeferredMark) : Prop :=
  m.started = false ∧ (m.placed = true → env.lasts m.callerScope = true)

/-- Besides, instances may have been queued. -/
structure Advances (env env' : Env) : Prop extends Continues env env' where
  queue : ∃ new, env'.marksQueued = env.marksQueued ++ new ∧ ∀ m ∈ new, m.Waits env'

namespace Continues

variable {env env₁ env₂ : Env}

theorem refl (env : Env) : Continues env env := ⟨rfl, List.prefix_refl _, id⟩

theorem trans (h : Continues env env₁) (h' : Continues env₁ env₂) : Continues env env₂ where
  listStarts := h'.listStarts.trans h.listStarts
  kept := h.kept.trans h'.kept
  ledger hl := h'.ledger (h.ledger hl)

theorem lasts (h : Continues env env₁) {id : ScopeId} (hl : env.lasts id = true) :
    env₁.lasts id = true := by
  unfold Env.lasts at hl ⊢
  rw [h.listStarts]
  cases hs : env.listStarts with
  | nil => simp [hs] at hl
  | cons start rest =>
    simp only [hs] at hl
    exact Env.outlasts_of_prefix h.kept hl

theorem waits (h : Continues env env₁) {m : DeferredMark} (hm : m.Waits env) : m.Waits env₁ :=
  ⟨hm.1, fun hp ↦ h.lasts (hm.2 hp)⟩

end Continues

namespace Advances

variable {env env₁ env₂ : Env}

theorem refl (env : Env) : Advances env env := ⟨.refl env, [], by simp, by simp⟩

theorem trans (h : Advances env env₁) (h' : Advances env₁ env₂) : Advances env env₂ := by
  obtain ⟨new, hq, hnew⟩ := h.queue
  obtain ⟨new', hq', hnew'⟩ := h'.queue
  refine ⟨h.toContinues.trans h'.toContinues, new ++ new', by simp [hq', hq], fun m hm ↦ ?_⟩
  rcases List.mem_append.1 hm with hm | hm
  · exact h'.toContinues.waits (hnew m hm)
  · exact hnew' m hm

/-- Where nothing changes that the contracts are about. -/
theorem of_unchanged (hlists : env₁.listStarts = env.listStarts)
    (hcells : env₁.cells = env.cells) (hqueue : env₁.marksQueued = env.marksQueued)
    (hevents : env₁.events = env.events) (htickets : env₁.tickets = env.tickets) :
    Advances env env₁ := by
  exact ⟨⟨hlists, hcells ▸ List.prefix_refl _, fun hl ↦ hl.congr hqueue hevents htickets⟩, [],
    by simp [hqueue], by simp⟩

theorem emit (env : Env) (d : Diagnostic) : Advances env (env.emit d) := by
  unfold Env.emit
  cases d.severity <;> exact of_unchanged rfl rfl rfl rfl rfl

theorem setVarIn {id : ScopeId} {name : String} {value : Value}
    (h : env.setVarIn id name value = some env₁) : Advances env env₁ := by
  obtain ⟨s, -, rfl⟩ := Option.map_eq_some_iff.1 h
  cases id with
  | global => exact of_unchanged rfl rfl rfl rfl rfl
  | node => exact of_unchanged rfl rfl rfl rfl rfl
  | cell n =>
    refine of_unchanged rfl ?_ rfl rfl rfl
    refine List.ext_getElem? fun i ↦ ?_
    simp only [Env.cells, Env.putScope, List.getElem?_map, List.getElem?_modify]
    by_cases hi : n = i <;> cases env.scopes[i]? <;> simp [hi]

theorem createClassScope (env : Env) (parent : ScopeParent) (className : String) :
    Advances env (env.createClassScope parent className).2 := by
  refine ⟨⟨rfl, ?_, fun hl ↦ ⟨hl.tickets, hl.balance, hl.live⟩⟩, [], ?_, by simp⟩
  · simp [Env.cells, Env.createClassScope, Env.createScope]
  · simp [Env.marksQueued, Env.createClassScope, Env.createScope]

theorem queueDeferred (env : Env) (d : QueuedDefine) : Advances env (env.queueDeferred d) := by
  let m : DeferredMark := ⟨env.tickets, env.currentScope, env.wellPlaced, false⟩
  have hqueue : (env.queueDeferred d).marksQueued = env.marksQueued ++ [m] := by
    simp [Env.marksQueued, Env.queueDeferred, m]
  refine ⟨⟨rfl, List.prefix_refl _, fun hl ↦ ⟨?_, ?_, ?_⟩⟩, [m], hqueue, ?_⟩
  · simp [Env.queueDeferred, issued, List.range_succ, ← hl.tickets]
  · rw [hqueue]
    have hm : waiting [m] = [(env.tickets, env.wellPlaced)] := rfl
    simp only [Env.queueDeferred, issued_append, ran_append, waiting_append, hm]
    simpa [issued, ran] using hl.balance.append_right _
  · intro t l h
    exact hl.live t l (by simpa [Env.queueDeferred] using h)
  · intro m' hm'
    obtain rfl := List.mem_singleton.1 hm'
    exact ⟨rfl, fun hp ↦ hp⟩

theorem overrideDeferred (env : Env) (i : ℕ) (f : DeferredDefine → DeferredDefine)
    (hf : ∀ d, (f d).toDeferredMark = d.toDeferredMark) :
    Advances env { env with deferredDefines := env.deferredDefines.modify i f } := by
  refine of_unchanged rfl rfl (List.ext_getElem? fun j ↦ ?_) rfl rfl
  simp only [Env.marksQueued, List.getElem?_map, List.getElem?_modify]
  by_cases hj : i = j <;> cases env.deferredDefines[j]? <;> simp [hj, hf]

theorem of_prim {β : Type} {factsDb : Option FactsDb} (o : EnvPrim β) {b : β}
    (h : o.handle factsDb env = .ok (b, env₁)) : Advances env env₁ := by
  cases o
  case emit d => cases h; exact emit env d
  case lookupScopes | lookupQualified | lookupIncluded | getVar | classScopeName | getDeferred =>
    rw [eq_of_orUndefined h]
    exact refl env
  case setVar name value =>
    simp only [EnvPrim.handle] at h
    split at h
    · next hset => cases h; exact setVarIn hset
    · cases h
  case setVarIn id name value =>
    simp only [EnvPrim.handle] at h
    split at h
    · next hset => cases h; exact setVarIn hset
    · cases h
  case createClassScope parent className =>
    cases h
    exact createClassScope env parent className
  case queueDeferred d => cases h; exact queueDeferred env d
  case overrideDeferred i name value => cases h; exact overrideDeferred env i _ fun _ ↦ rfl
  case addResource =>
    simp only [EnvPrim.handle] at h
    split at h <;> cases h <;> exact of_unchanged rfl rfl rfl rfl rfl
  case undefined => cases h
  all_goals cases h; exact of_unchanged rfl rfl rfl rfl rfl

/-- Every quiet operation. -/
theorem of_quiet {β : Type} {factsDb : Option FactsDb} (o : QuietOp β) {b : β}
    (h : o.handle factsDb env = .ok (b, env₁)) : Advances env env₁ := by
  cases o with
  | read f => cases h; exact refl env
  | prim o => exact of_prim o h

theorem of_node {β : Type} (factsDb : Option FactsDb) (o : NodeOp β) (env : Env) :
    Advances env (o.handle factsDb env).2 := by
  cases o
  case setFactsNode certname =>
    simp only [NodeOp.handle]
    cases factsDb.bind (·.find certname) <;> exact of_unchanged rfl rfl rfl rfl rfl
  all_goals exact of_unchanged rfl rfl rfl rfl rfl

end Advances

/-! ### Procedures -/

/-- The innermost list started when there were no more cells than now. -/
def Env.Nested (env : Env) : Prop := ∀ start ∈ env.listStarts.head?, start ≤ env.scopes.length

theorem Continues.nested {env env' : Env} (h : Continues env env') (hn : env.Nested) :
    env'.Nested := by
  intro start hstart
  rw [h.listStarts] at hstart
  have hlen := h.kept.length_le
  simp only [Env.cells, List.length_map] at hlen
  exact (hn start hstart).trans hlen

/-- The instances from `cursor` on wait. -/
structure Ready (cursor : ℕ) (env : Env) : Prop where
  nested : env.Nested
  le : cursor ≤ env.marksQueued.length
  waits : ∀ m ∈ env.marksQueued.drop cursor, m.Waits env

/-- The instances from `i` on have been started up to `j`, and from there on they wait. -/
structure FlushedTo (i j : ℕ) (env env' : Env) : Prop extends Continues env env' where
  ready : Ready j env'
  grows : env.marksQueued.length ≤ env'.marksQueued.length
  started : ∃ ms, env'.marksQueued.take j = env.marksQueued.take i ++ ms ∧
    ∀ m ∈ ms, m.started = true

/-- What each procedure does to the queue: functions add to it, and the loop over the queue starts
everything that waits. -/
def QueueContract : (β : Type) → Procedure β → Env → β → Env → Prop
  | _, .call _, env, _, env' => env.Nested → Advances env env'
  | _, .flush (.flushDeferred cursor), env, _, env' =>
    Ready cursor env → FlushedTo cursor env'.marksQueued.length env env'

/-- A meaning of operations and procedures in which procedures meet their contracts. -/
structure QueueSound (factsDb : Option FactsDb) (hd : Handler (Calls Procedure EnvOp) Env Halt) :
    Prop extends FrameSound factsDb hd where
  contract : ∀ β (c : Procedure β) env b env',
    hd β (.call c) env = .ok (b, env') → QueueContract β c env b env'

/-- Where the program returns, the queue has advanced. -/
def KeepsQueue (hd : Handler (Calls Procedure EnvOp) Env Halt) {α : Type} (p : Comp α) : Prop :=
  ∀ env a env', env.Nested → p.run hd env = .ok (a, env') → Advances env env'

namespace KeepsQueue

variable {hd : Handler (Calls Procedure EnvOp) Env Halt} {α β : Type}

theorem bind {p : Comp α} {f : α → Comp β} (hp : KeepsQueue hd p)
    (hf : ∀ a, KeepsQueue hd (f a)) : KeepsQueue hd (p >>= f) := by
  intro env b env' hn h
  obtain ⟨a, env₁, h₁, h₂⟩ := Prog.run_bind_eq_ok.1 h
  have hp' := hp _ _ _ hn h₁
  exact hp'.trans (hf a _ _ _ (hp'.toContinues.nested hn) h₂)

end KeepsQueue

/-- Destroying a scope ends its cell, and nothing else that the contracts are about. -/
theorem Env.cells_destroyScope {env env' : Env} {m : ℕ}
    (h : env.destroyScope (.cell m) = some env') :
    env'.cells = env.cells.modify m fun c ↦ (false, c.2) := by
  unfold Env.destroyScope at h
  split_ifs at h
  cases h
  refine List.ext_getElem? fun i ↦ ?_
  simp only [Env.cells, List.getElem?_map, List.getElem?_modify]
  by_cases hi : m = i <;> cases env.scopes[i]? <;> simp [hi]

theorem Env.unchanged_destroyScope {env env' : Env} {id : ScopeId}
    (h : env.destroyScope id = some env') :
    env'.listStarts = env.listStarts ∧ env'.marksQueued = env.marksQueued ∧
      env'.events = env.events ∧ env'.tickets = env.tickets := by
  cases id with
  | global => cases h
  | node => cases h
  | cell n =>
    unfold Env.destroyScope at h
    split_ifs at h
    cases h
    exact ⟨rfl, rfl, rfl, rfl⟩

/-- When the scope of a call is destroyed, the scopes that last still do. -/
theorem Env.lasts_of_destroy {env env' : Env} {m : ℕ} (hlists : env'.listStarts = env.listStarts)
    (hcells : env'.cells = env.cells.modify m fun c ↦ (false, c.2))
    (hm : env.cells[m]? = some (true, true)) (hstart : ∀ start ∈ env.listStarts.head?, start ≤ m)
    {id : ScopeId} (hl : env.lasts id = true) : env'.lasts id = true := by
  unfold Env.lasts at hl ⊢
  rw [hlists]
  cases hs : env.listStarts with
  | nil => simp [hs] at hl
  | cons start rest =>
    simp only [hs] at hl ⊢
    cases id with
    | global => rfl
    | node => rfl
    | cell n =>
      obtain ⟨temporary, hc, ht⟩ := (env.outlasts_cell start n).1 hl
      refine (env'.outlasts_cell start n).2 ⟨temporary, ?_, ht⟩
      have hne : m ≠ n := by
        rintro rfl
        obtain rfl : true = temporary := by simpa [hm] using hc
        have := hstart start (by simp [hs])
        have := ht rfl
        omega
      rw [hcells, List.getElem?_modify, hc]
      simp [hne]

@[simp] theorem popScope_handle_fst (env : Env) :
    (FrameOp.popScope.handle env).1 = env.currentScope := by
  cases hs : env.scopeStack <;> simp [FrameOp.handle, FrameOp.apply, hs]

namespace QueueSound

variable {factsDb : Option FactsDb} {hd : Handler (Calls Procedure EnvOp) Env Halt} {α : Type}

theorem quiet (hs : QueueSound factsDb hd) (q : Quiet α) : KeepsQueue hd (liftM q) := by
  intro env a env' hn h
  change (q.translate liftOp).run hd env = _ at h
  rw [Prog.run_translate] at h
  refine Handler.Preserves.run (I := fun s ↦ Advances env s) ?_ q (.refl env) h
  intro β e s b s' hI hrun
  refine hI.trans ?_
  cases e with
  | call c => exact hs.contract _ _ _ _ _ hrun (hI.toContinues.nested hn)
  | prim o =>
    change hd β (.prim (.quiet o)) s = _ at hrun
    rw [hs.prim] at hrun
    exact .of_quiet o hrun

theorem bracket {β γ : Type} (hs : QueueSound factsDb hd) {enter : FrameOp β}
    {leave : β → FrameOp γ} {p : Comp α} (hp : KeepsQueue hd p) :
    KeepsQueue hd (bracket enter leave p) := by
  intro env a env' hn h
  obtain ⟨env₁, h₁, rfl⟩ := hs.run_bracket h
  have henter : Advances env (enter.handle env).2 := .of_unchanged rfl rfl rfl rfl rfl
  have hmid : Advances (enter.handle env).2 env₁ := hp _ _ _ (henter.toContinues.nested hn) h₁
  exact (henter.trans hmid).trans (.of_unchanged rfl rfl rfl rfl rfl)

theorem inNewScope (hs : QueueSound factsDb hd) {parent : ScopeParent} {name : String}
    {p : ScopeId → Comp α} (hframe : ∀ id, KeepsFrame hd (p id))
    (hp : ∀ id, KeepsQueue hd (p id)) : KeepsQueue hd (inNewScope parent name p) := by
  intro env a env' hn h
  obtain ⟨env₁, h₁, hdestroy⟩ := hs.run_inNewScope h
  have hcurrent : env₁.currentScope = .cell env.scopes.length :=
    congrArg Frame.currentScope (hframe _ _ _ _ h₁)
  rw [popScope_handle_fst, hcurrent] at hdestroy
  have hlen : env.cells.length = env.scopes.length := List.length_map ..
  -- The cells when `p` starts are those of `env` and that of the new scope.
  have hstart : (env.enterScope parent name).cells = env.cells ++ [(true, true)] := by
    simp [Env.cells, Env.enterScope, FrameOp.handle, Env.createScope]
  have hnested : (env.enterScope parent name).Nested := fun start h ↦
    (hn start h).trans (by simp [Env.enterScope, FrameOp.handle, Env.createScope])
  have hmid : Advances (env.enterScope parent name) env₁ := hp _ _ _ _ hnested h₁
  obtain ⟨new, hqueue, hnew⟩ := hmid.queue
  have hkept : env.cells ++ [(true, true)] <+: env₁.cells := hstart ▸ hmid.kept
  obtain ⟨hlists', hqueue', hevents', htickets'⟩ := Env.unchanged_destroyScope hdestroy
  have hcells' : env'.cells = env₁.cells.modify env.scopes.length fun c ↦ (false, c.2) := by
    have h := Env.cells_destroyScope hdestroy
    exact h
  refine ⟨⟨hlists'.trans hmid.listStarts, ?_, fun hl ↦ ?_⟩, new, hqueue'.trans hqueue, ?_⟩
  · rw [List.prefix_iff_getElem?]
    intro i hi
    rw [hcells', List.getElem?_modify]
    have hne : env.scopes.length ≠ i := by omega
    simpa [hne] using List.prefix_iff_getElem?.1 ((List.prefix_append ..).trans hkept) i hi
  · exact (hmid.ledger (hl.congr rfl rfl rfl)).congr hqueue' hevents' htickets'
  · intro m hm
    have hown : env₁.cells[env.scopes.length]? = some (true, true) := by
      have := List.prefix_iff_getElem?.1 hkept env.cells.length (by simp)
      simpa [← hlen] using this
    have hold : ∀ start ∈ env₁.listStarts.head?, start ≤ env.scopes.length :=
      fun start h ↦ hn start (hmid.listStarts ▸ h)
    exact ⟨(hnew m hm).1, fun hplaced ↦
      Env.lasts_of_destroy hlists' hcells' hown hold ((hnew m hm).2 hplaced)⟩

/-- Structured programs keep the queue. -/
theorem structured (hs : QueueSound factsDb hd) {p : Comp α} (hp : Structured p) :
    KeepsQueue hd p := by
  induction hp with
  | pure a => intro env a' env' hn h; cases h; exact .refl _
  | quiet q => exact hs.quiet q
  | bind _ _ ihp ihf => exact ihp.bind ihf
  | bracket _ _ ih => exact hs.bracket ih
  | inNewScope hp ih => exact hs.inNewScope (fun id ↦ hs.toFrameSound.structured (hp id)) ih

/-- So do those with operations on nodes. -/
theorem nodeStructured (hs : QueueSound factsDb hd) {p : Comp α} (hp : NodeStructured p) :
    KeepsQueue hd p := by
  induction hp with
  | structured hp => exact hs.structured hp
  | node o =>
    intro env a env' hn h
    rw [hs.run_onNode, Except.ok.injEq] at h
    obtain rfl : (o.handle factsDb env).2 = env' := congrArg Prod.snd h
    exact .of_node factsDb o env
  | bind _ _ ihp ihf => exact ihp.bind ihf
  | inNewScope hp ih => exact hs.inNewScope (fun id ↦ hs.toFrameSound.nodeStructured (hp id)) ih

end QueueSound

/-! ### The loop over the queue -/

namespace FlushedTo

variable {i j k : ℕ} {env env₁ env₂ : Env}

theorem refl (h : Ready i env) : FlushedTo i i env env :=
  ⟨.refl env, h, le_refl _, [], by simp, by simp⟩

theorem trans (h : FlushedTo i j env env₁) (h' : FlushedTo j k env₁ env₂) :
    FlushedTo i k env env₂ := by
  obtain ⟨ms, hq, hms⟩ := h.started
  obtain ⟨ms', hq', hms'⟩ := h'.started
  refine ⟨h.toContinues.trans h'.toContinues, h'.ready, h.grows.trans h'.grows, ms ++ ms',
    by rw [hq', hq, List.append_assoc], fun m hm ↦ ?_⟩
  rcases List.mem_append.1 hm with hm | hm
  exacts [hms m hm, hms' m hm]

end FlushedTo

/-- The mark of an instance that has been started. -/
def DeferredMark.start (m : DeferredMark) : DeferredMark := { m with started := true }

theorem waiting_start {ms : List DeferredMark} {m : DeferredMark} (hm : m.started = false)
    (ms' : List DeferredMark) :
    (waiting (ms ++ m :: ms')).Perm ((m.ticket, m.placed) :: waiting (ms ++ m.start :: ms')) := by
  have hwait : waiting (m :: ms') = (m.ticket, m.placed) :: waiting ms' := by
    simp [waiting, hm]
  have hstart : waiting (m.start :: ms') = waiting ms' := by
    simp [waiting, DeferredMark.start]
  rw [waiting_append, waiting_append, hwait, hstart]
  exact List.perm_middle

/-- What starting an instance does. -/
theorem startDeferred_continues {env env₁ : Env} {i : ℕ} {d : DeferredDefine}
    (hr : Ready i env) (h : env.startDeferred i = some (d, env₁)) :
    Continues env env₁ ∧ env₁.marksQueued =
      env.marksQueued.take i ++ d.toDeferredMark.start :: env.marksQueued.drop (i + 1) := by
  obtain ⟨d', hd, heq⟩ := Option.map_eq_some_iff.1 h
  cases heq
  obtain ⟨hi, hget⟩ := List.getElem?_eq_some_iff.1 hd
  have hi' : i < env.marksQueued.length := by simpa [Env.marksQueued] using hi
  have hm : env.marksQueued[i] = d.toDeferredMark := by simp [Env.marksQueued, hget]
  have hsplit : env.marksQueued =
      env.marksQueued.take i ++ d.toDeferredMark :: env.marksQueued.drop (i + 1) := by
    rw [← hm, List.getElem_cons_drop, List.take_append_drop]
  have hqueue : (env.deferredDefines.modify i fun d ↦ { d with started := true }).map
      (·.toDeferredMark) =
        env.marksQueued.take i ++ d.toDeferredMark.start :: env.marksQueued.drop (i + 1) := by
    rw [List.modify_eq_take_cons_drop hi, hget]
    simp [Env.marksQueued, DeferredMark.start, List.map_take, List.map_drop]
  have hwaits : d.toDeferredMark.Waits env :=
    hr.waits _ (by rw [List.drop_eq_getElem_cons hi', hm]; exact List.mem_cons_self)
  refine ⟨⟨rfl, List.prefix_refl _, fun hl ↦ ⟨?_, ?_, ?_⟩⟩, hqueue⟩
  · simpa [issued] using hl.tickets
  · change (issued (env.events ++ [_])).Perm (ran (env.events ++ [_]) ++ waiting (List.map _ _))
    rw [hqueue, issued_append, ran_append]
    have hbalance : (issued env.events).Perm (ran env.events ++ waiting (_ ++ _ :: _)) :=
      hsplit ▸ hl.balance
    have hperm := hbalance.trans ((waiting_start hwaits.1 _).append_left _)
    simpa [issued, ran] using hperm
  · intro t l hmem
    rcases List.mem_append.1 hmem with hmem | hmem
    · exact hl.live t l hmem
    · obtain ⟨-, hplaced, rfl⟩ : t = d.ticket ∧ true = d.placed ∧ l = env.isLive d.callerScope := by
        simpa using hmem
      exact Env.isLive_of_lasts (hwaits.2 hplaced.symm)

section World

variable (w : World) {hd : Handler (Calls Procedure EnvOp) Env Halt}

/-- Running one instance. -/
theorem execDeferredDefine_flushes (hs : QueueSound w.factsDb hd) {i : ℕ} {env env' : Env}
    (hr : Ready i env) (h : (execDeferredDefine w i).run hd env = .ok ((), env')) :
    FlushedTo i (i + 1) env env' := by
  obtain ⟨d, env₁, h₁, h₂⟩ := Prog.run_bind_eq_ok.1 h
  rw [hs.run_onOwn] at h₁
  simp only [OwnOp.handle] at h₁
  split at h₁
  case h_2 => cases h₁
  case h_1 hstart =>
    cases h₁
    obtain ⟨hcont, hqueue⟩ := startDeferred_continues hr hstart
    have hadv : Advances env₁ env' :=
      hs.structured (structured_runDeferred w i d) _ _ _ (hcont.nested hr.nested) h₂
    obtain ⟨new, hnewq, hnew⟩ := hadv.queue
    have hc := hcont.trans hadv.toContinues
    have hlen := List.length_take_of_le hr.le
    have hqueue' : env'.marksQueued = (env.marksQueued.take i ++ [d.toDeferredMark.start]) ++
        (env.marksQueued.drop (i + 1) ++ new) := by
      rw [hnewq, hqueue]
      simp
    have hlen' : (env.marksQueued.take i ++ [d.toDeferredMark.start]).length = i + 1 := by
      simp [hlen]
    refine ⟨hc, ⟨hc.nested hr.nested, ?_, fun m hm ↦ ?_⟩, ?_, [d.toDeferredMark.start], ?_, ?_⟩
    · rw [hqueue', List.length_append]
      omega
    · rw [hqueue', List.drop_left' hlen'] at hm
      rcases List.mem_append.1 hm with hm | hm
      · refine hc.waits (hr.waits m ?_)
        exact List.mem_of_mem_drop (i := 1) (by rwa [List.drop_drop])
      · exact hnew m hm
    · rw [hqueue']
      simp only [List.length_append, List.length_take, List.length_drop, List.length_cons,
        List.length_nil]
      omega
    · rw [hqueue', List.take_left' hlen']
    · simp [DeferredMark.start]

/-- One batch of the loop over the queue. -/
theorem forM_execDeferredDefine_flushes (hs : QueueSound w.factsDb hd) {i : ℕ} (k : ℕ)
    {env env' : Env} (hr : Ready i env) (hle : i + k ≤ env.marksQueued.length)
    (h : ((List.range' i k).forM (execDeferredDefine w)).run hd env = .ok ((), env')) :
    FlushedTo i (i + k) env env' := by
  induction k generalizing i env with
  | zero =>
    obtain rfl : env = env' := by simpa using h
    exact .refl hr
  | succ k ih =>
    obtain ⟨_, env₁, h₁, h₂⟩ := Prog.run_bind_eq_ok.1 h
    have hone := execDeferredDefine_flushes w hs hr h₁
    have hrest := ih hone.ready (by have := hone.grows; omega) h₂
    have := hone.trans hrest
    rwa [show i + 1 + k = i + (k + 1) by omega] at this

/-- The loop over the queue meets its contract. -/
theorem flushDeferredBody_flushes (hs : QueueSound w.factsDb hd) {cursor : ℕ} {env env' : Env}
    (hr : Ready cursor env) (h : (flushDeferredBody w cursor).run hd env = .ok ((), env')) :
    FlushedTo cursor env'.marksQueued.length env env' := by
  obtain ⟨count, env₁, h₁, h₂⟩ := Prog.run_bind_eq_ok.1 h
  rw [hs.run_read] at h₁
  cases h₁
  have hle := hr.le
  rw [Env.get_deferredCount] at h₂
  change (if cursor < env.marksQueued.length then _ else _ : Comp Unit).run hd env = _ at h₂
  split_ifs at h₂ with hlt
  · obtain ⟨_, env₂, h₃, h₄⟩ := Prog.run_bind_eq_ok.1 h₂
    have hbatch := forM_execDeferredDefine_flushes w hs _ hr (by omega) h₃
    rw [show cursor + (env.marksQueued.length - cursor) = env.marksQueued.length by omega]
      at hbatch
    rw [flushDeferred, Prog.run_perform] at h₄
    exact hbatch.trans (hs.contract _ _ _ _ _ h₄ hbatch.ready)
  · obtain rfl : env = env' := by simpa using h₂
    rw [show env.marksQueued.length = cursor by omega]
    exact .refl hr

/-- A statement list leaves the queue as it found it. -/
theorem execStmtListBody_queue (hs : QueueSound w.factsDb hd) (ss : List Stmt) {env env' : Env}
    (h : (execStmtListBody ss).run hd env = .ok ((), env')) :
    Continues env env' ∧ env'.marksQueued = env.marksQueued := by
  obtain ⟨saved, env₀, h₀, k₀⟩ := Prog.run_bind_eq_ok.1 h
  obtain ⟨_, env₁, h₁, k₁⟩ := Prog.run_bind_eq_ok.1 k₀
  obtain ⟨_, env₂, h₂, k₂⟩ := Prog.run_bind_eq_ok.1 k₁
  obtain ⟨_, env₃, h₃, k₃⟩ := Prog.run_bind_eq_ok.1 k₂
  obtain ⟨_, env₄, h₄, h₅⟩ := Prog.run_bind_eq_ok.1 k₃
  rw [hs.run_read] at h₀
  rw [hs.run_onOwn] at h₁ h₄ h₅
  cases h₀
  cases h₁
  cases h₄
  cases h₅
  rw [Env.get_deferredCount] at h₃ ⊢
  -- The statements, with the list as the innermost one.
  have hbody : Advances { env with listStarts := env.scopes.length :: env.listStarts } env₂ :=
    hs.quiet (execEach ss) _ _ _ (by simp [Env.Nested]) h₂
  obtain ⟨new, hqueue, hnew⟩ := hbody.queue
  have hqueue : env₂.marksQueued = env.marksQueued ++ new := hqueue
  have hready : Ready env.marksQueued.length env₂ := by
    refine ⟨hbody.toContinues.nested (by simp [Env.Nested]), by simp [hqueue], fun m hm ↦ ?_⟩
    rw [hqueue, List.drop_left] at hm
    exact hnew m hm
  -- What they queued is started, and then given up.
  rw [flushDeferred, Prog.run_perform] at h₃
  have hflush : FlushedTo _ _ env₂ env₃ := hs.contract _ _ _ _ _ h₃ hready
  obtain ⟨ms, hstarted, hms⟩ := hflush.started
  rw [List.take_length, hqueue, List.take_left] at hstarted
  have hcont := hbody.toContinues.trans hflush.toContinues
  have htake : (env₃.deferredDefines.take env.marksQueued.length).map (·.toDeferredMark) =
      env.marksQueued := by
    rw [List.map_take]
    change env₃.marksQueued.take _ = _
    rw [hstarted, List.take_left]
  refine ⟨⟨?_, hcont.kept, fun hl ↦ ?_⟩, htake⟩
  · change env₃.listStarts.tail = _
    rw [hcont.listStarts]
    rfl
  · have hl₃ := hcont.ledger (hl.congr rfl rfl rfl)
    refine ⟨hl₃.tickets, ?_, hl₃.live⟩
    have hbalance := hl₃.balance
    rw [hstarted, waiting_append, waiting_eq_nil hms, List.append_nil] at hbalance
    change (issued env₃.events).Perm (ran env₃.events ++ waiting (List.map _ _))
    rwa [htake]

/-- The body of each procedure meets the contract if the procedures that it calls do. -/
theorem procedureBody_contract (hs : QueueSound w.factsDb hd) {β : Type} (c : Procedure β)
    {env env' : Env} {b : β} (h : (procedureBody w β c).run hd env = .ok (b, env')) :
    QueueContract β c env b env' := by
  cases c with
  | flush f =>
    cases f with
    | flushDeferred cursor => exact fun hr ↦ flushDeferredBody_flushes w hs hr h
  | call c =>
    intro hn
    cases c with
    | evalExpr e => exact hs.structured (structured_evalExprBody w e) _ _ _ hn h
    | execStmt s => exact hs.nodeStructured (nodeStructured_execStmtBody w s) _ _ _ hn h
    | execStmtList ss =>
      obtain ⟨hcont, hqueue⟩ := execStmtListBody_queue w hs ss h
      exact ⟨hcont, [], by simp [hqueue], by simp⟩
    | includeClassFromDef c =>
      exact hs.structured (structured_includeClassFromDefBody w c) _ _ _ hn h
    | loaderIncludeClass name =>
      exact hs.structured (structured_loaderIncludeClassBody w name) _ _ _ hn h
    | lookupChain name => exact hs.quiet _ _ _ _ hn h
    | providerLookup provider key => exact hs.quiet _ _ _ _ hn h
    | matchesFilter filter vres => exact hs.quiet _ _ _ _ hn h

/-- Procedures meet their contracts, at every depth of calls. -/
theorem handler_queueSound (fuel : ℕ) : QueueSound w.factsDb (w.handler fuel) where
  toFrameSound := handler_frameSound w fuel
  contract β c env b env' h := by
    let R : (β : Type) → Procedure β → Env → β → Env → Prop :=
      fun β c env b env' ↦ env'.toFrame = env.toFrame ∧ QueueContract β c env b env'
    refine (Calls.meets (R := R) (fun hd hprim hcall _ c env b env' h ↦ ?_) fuel h).2
    have hs : QueueSound w.factsDb hd :=
      ⟨⟨hprim, fun _ c _ _ _ h ↦ (hcall _ c _ _ _ h).1⟩, fun _ c _ _ _ h ↦ (hcall _ c _ _ _ h).2⟩
    exact ⟨procedureBody_keepsFrame w hs.toFrameSound c _ _ _ h, procedureBody_contract w hs c h⟩

end World

/-! ### Whole compiles -/

/-- The times an instance was executed, each with the state of its caller's scope. -/
def executions (es : List DeferredEvent) (t : ℕ) : List Bool :=
  es.filterMap fun
    | .queued .. => none
    | .executed t' _ live => if t' = t then some live else none

/-- Every instance was declared while a statement list was executed, in a scope that outlasts the
list. -/
def AllPlaced (es : List DeferredEvent) : Prop := ∀ t b, .queued t b ∈ es → b = true

/-- Every instance that was queued was executed exactly once, in a live scope. -/
def AllRunOnce (es : List DeferredEvent) : Prop :=
  ∀ t b, .queued t b ∈ es → executions es t = [true]

/-- An environment in which nothing has been queued yet, outside of statement lists. -/
structure Env.AtStart (env : Env) : Prop where
  events : env.events = []
  tickets : env.tickets = 0
  queue : env.deferredDefines = []
  listStarts : env.listStarts = []

theorem Env.AtStart.ledger {env : Env} (h : env.AtStart) : Ledger env where
  tickets := by simp [h.events, h.tickets, issued]
  balance := by simp [h.events, h.queue, issued, ran, waiting, Env.marksQueued]
  live := by simp [h.events]

theorem length_executions (es : List DeferredEvent) (t : ℕ) :
    (executions es t).length = ((ran es).map Prod.fst).count t := by
  induction es with
  | nil => rfl
  | cons e es ih =>
    cases e with
    | queued t' b => simpa [executions, ran] using ih
    | executed t' b l =>
      by_cases ht : t' = t
      · simpa [executions, ran, ht] using ih
      · simpa [executions, ran, ht] using ih

theorem mem_issued {es : List DeferredEvent} {t : ℕ} {b : Bool} :
    (t, b) ∈ issued es ↔ .queued t b ∈ es := by
  simp only [issued, List.mem_filterMap]
  constructor
  · rintro ⟨e, he, heq⟩
    cases e with
    | queued t' b' => cases heq; exact he
    | executed => cases heq
  · exact fun h ↦ ⟨_, h, rfl⟩

theorem mem_executions {es : List DeferredEvent} {t : ℕ} {l : Bool} (h : l ∈ executions es t) :
    ∃ b, .executed t b l ∈ es ∧ (t, b) ∈ ran es := by
  obtain ⟨e, he, heq⟩ := List.mem_filterMap.1 h
  cases e with
  | queued => cases heq
  | executed t' b l' =>
    simp only [Option.ite_none_right_eq_some, Option.some.injEq] at heq
    obtain ⟨rfl, rfl⟩ := heq
    exact ⟨b, he, List.mem_filterMap.2 ⟨_, he, rfl⟩⟩

/-- When the accounts balance, an instance declared in the right place that does not wait any
more was executed exactly once, in a live scope. -/
theorem Ledger.executions_eq {env : Env} (hl : Ledger env) {t : ℕ}
    (hq : .queued t true ∈ env.events) (hw : (t, true) ∉ waiting env.marksQueued) :
    executions env.events t = [true] := by
  have hissued : (t, true) ∈ issued env.events := mem_issued.2 hq
  have hnodup : ((issued env.events).map Prod.fst).Nodup := hl.tickets ▸ List.nodup_range
  have hran : (t, true) ∈ ran env.events :=
    (List.mem_append.1 (hl.balance.mem_iff.1 hissued)).resolve_right hw
  have hnodup' : ((ran env.events).map Prod.fst).Nodup := by
    have h := (hl.balance.map Prod.fst).nodup_iff.1 hnodup
    rw [List.map_append] at h
    exact h.of_append_left
  have hlen : (executions env.events t).length = 1 := by
    rw [length_executions]
    exact List.count_eq_one_of_mem hnodup' (List.mem_map_of_mem hran)
  obtain ⟨l, heq⟩ := List.length_eq_one_iff.1 hlen
  obtain ⟨b, hexec, hmem⟩ := mem_executions (heq ▸ List.mem_singleton_self l)
  obtain rfl : b = true := by
    have h := hl.balance.mem_iff.2 (List.mem_append_left _ hmem)
    simpa using List.inj_on_of_nodup_map hnodup h hissued rfl
  rw [heq, hl.live t l hexec]

/-- After a structured program outside of all lists, only instances that were not declared in the
right place may wait. -/
theorem allRunOnce_of_structured (w : World) (fuel : ℕ) {p : Comp Unit} (hp : NodeStructured p)
    {env env' : Env} (hstart : env.AtStart) (h : p.run (w.handler fuel) env = .ok ((), env'))
    (hplaced : AllPlaced env'.events) : AllRunOnce env'.events := by
  have hnested : env.Nested := by simp [Env.Nested, hstart.listStarts]
  have hadv := (handler_queueSound w fuel).nodeStructured hp _ _ _ hnested h
  obtain ⟨new, hqueue, hnew⟩ := hadv.queue
  intro t b hq
  obtain rfl := hplaced t b hq
  refine (hadv.ledger hstart.ledger).executions_eq hq fun hw ↦ ?_
  obtain ⟨m, hm, heq⟩ := List.mem_map.1 hw
  have hmem : m ∈ new := by
    have hmem := List.mem_of_mem_filter hm
    rw [hqueue] at hmem
    simpa [Env.marksQueued, hstart.queue] using hmem
  have hlasts := (hnew m hmem).2 (congrArg Prod.snd heq)
  simp [Env.lasts, hadv.listStarts, hstart.listStarts] at hlasts

theorem Env.atStart_cloneForNode (source : Env) (certname : String) :
    (source.cloneForNode certname).AtStart := ⟨rfl, rfl, rfl, rfl⟩

/-- A statement list leaves as many instances in the queue as it found. -/
theorem deferredDefines_execStmtList (w : World) (fuel : ℕ) (ss : List Stmt) {env env' : Env}
    (h : w.execStmtList fuel ss env = .ok ((), env')) :
    env'.deferredDefines.length = env.deferredDefines.length := by
  change (Prog.perform (.call (.call (.execStmtList ss)))).run (w.handler fuel) env = _ at h
  rw [Prog.run_perform] at h
  cases fuel with
  | zero => cases h
  | succ fuel =>
    have hqueue := (execStmtListBody_queue w (handler_queueSound w fuel) ss h).2
    simpa [Env.marksQueued] using congrArg List.length hqueue

/-- A defined type `d` without parameters and without a body. -/
def defineD : DefineStmt := ⟨"d", [], []⟩

/-- The declaration `d { 'x': }`. -/
def declareX : Stmt := .resource ⟨.normal, "d", [⟨some (.value (.string "x")), []⟩]⟩

/-- A node whose block declares an instance of `d`. -/
def nodeX : NodeStmt := ⟨"default", [declareX]⟩

/-- A function whose body declares an instance of `d`. -/
def declaringFunction : FunctionStmt := ⟨"f", [], [declareX]⟩

end PuppetC
