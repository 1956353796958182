import Mathlib.Data.List.GetD
import PuppetC.Interp.Lookup
import PuppetC.Support.DoubleCheckedMemo

/-!
# The caches of the loader, shared by the threads

All threads of a parallel compile load manifests, classes and defined types from one loader, and ask
it for the functions of the modules. The loader keeps what was parsed, the classes that were found
and the functions that were looked for in three tables under one lock, and parses and searches
without it. A program that another thread parsed in the meantime is taken, and its own destroyed.

`loading` is the system of any number of threads, in any interleaving of the parts under the lock,
with any answers of `stat`, `opendir` and the parser: files may come, go and change. A program is
named by the number of programs that were parsed before it.

## Main definitions

* `LoadCall`, `LoadResult`: what a thread asks for and gets.
* `LoaderState`, `LoaderAction`, `loading`: `puppet_loader_load_manifest`,
  `puppet_loader_load_class`, `puppet_loader_load_define` and `puppet_loader_has_custom_function`.
* `LoaderState.memo`: the table of the manifests as a table of results that threads share.
* `LoaderState.Backed`, `LoaderState.Consistent`: the invariants.

## Main results

* `shared_loads_agree`: all threads get the same, and nothing that was destroyed.
* `shared_lint_once`: the facts of each manifest are linted once, by one thread.
-/

namespace PuppetC

/-- A statement of a program. -/
structure StmtPlace where
  program : ℕ
  index : ℕ
deriving DecidableEq, Repr

/-- What is loaded. -/
inductive LoadTask where
  | manifest (path : String)
  | class (className : String)
  | define (defineName : String)
deriving DecidableEq, Repr

/-- What a thread asks the loader for. -/
inductive LoadCall where
  | load (task : LoadTask)
  | function (funcName : String)
deriving DecidableEq, Repr

/-- What it gets. -/
inductive LoadResult where
  | program (program : ℕ)
  | stmt (place : StmtPlace)
  | exists (found : Bool)
deriving DecidableEq, Repr

/-- The program that a result is or is in. -/
def LoadResult.program? : LoadResult → Option ℕ
  | .program p => some p
  | .stmt place => some place.program
  | .exists _ => none

/-- Where a thread stands in the loader. -/
inductive LoaderStage where
  | outside
  | checkClass (className : String)
  | resolve (task : LoadTask)
  | checkManifest (path : String) (task : LoadTask)
  | parse (path : String) (task : LoadTask)
  | addManifest (path : String) (program : ℕ) (task : LoadTask)
  | lint (path : String) (program : ℕ) (task : LoadTask)
  | pick (path : String) (program : ℕ) (task : LoadTask)
  | addClass (className : String) (place : StmtPlace)
  | checkFunction (funcName : String)
  | search (funcName : String)
  | addFunction (funcName : String) (found : Bool)

/-- What a thread does: it calls the loader, goes on, or is answered by the file system or the
parser. A search that cannot open the directory of the modules finds `none`; the call is answered
with false then, and nothing is kept. -/
inductive LoaderAction where
  | call (call : LoadCall)
  | proceed
  | stat (found : Bool)
  | parsed (stmts : Option (List Stmt))
  | searched (found : Option Bool)

/-- The tables, the programs that were parsed and those that were destroyed, and the threads.
`linted`, `loads` and `answers` are histories. -/
structure LoaderState (T : Type) where
  parsedManifests : Memo String ℕ
  loadedClasses : Memo String StmtPlace
  customFunctions : Memo String Bool
  programs : List (List Stmt)
  destroyed : List ℕ
  stage : T → LoaderStage
  linted : List (T × String × ℕ)
  loads : List (String × ℕ)
  answers : List (T × LoadCall × Option LoadResult)

/-- A class definition. -/
def Stmt.isClassDef : Stmt → Bool
  | .classDef _ => true
  | _ => false

/-- A definition of a defined type. -/
def Stmt.isDefine : Stmt → Bool
  | .define _ => true
  | _ => false

namespace LoaderState

variable {T : Type} [DecidableEq T]

/-- The loader when it was created. -/
def initial : LoaderState T :=
  ⟨.empty, .empty, .empty, [], [], fun _ ↦ .outside, [], [], []⟩

/-- A thread goes on. -/
def goto (s : LoaderState T) (t : T) (stage : LoaderStage) : LoaderState T :=
  { s with stage := Function.update s.stage t stage }

/-- A thread is answered. -/
def answer (s : LoaderState T) (t : T) (call : LoadCall) (result : Option LoadResult) :
    LoaderState T :=
  { s.goto t .outside with answers := s.answers ++ [(t, call, result)] }

/-- The statements of a program. -/
def stmts (s : LoaderState T) (program : ℕ) : List Stmt := s.programs.getD program []

/-- The first statement of a kind in a program. -/
def first (s : LoaderState T) (kind : Stmt → Bool) (program : ℕ) : Option StmtPlace :=
  ((s.stmts program).findIdx? kind).map (⟨program, ·⟩)

end LoaderState

/-- Where a call begins. -/
def LoadCall.start : LoadCall → LoaderStage
  | .load (.manifest path) => .checkManifest path (.manifest path)
  | .load (.class className) => .checkClass className
  | .load (.define defineName) => .resolve (.define defineName)
  | .function funcName => .checkFunction funcName

/-- The file that is loaded. -/
def LoadTask.path (loader : Loader) : LoadTask → String
  | .manifest path => path
  | .class className => loader.classPath className
  | .define defineName => loader.classPath defineName

section System

variable {T : Type} [DecidableEq T] (loader : Loader)

/-- What a thread does with a program that was loaded. -/
def pickStmt (s : LoaderState T) (t : T) (program : ℕ) : LoadTask → LoaderState T
  | .manifest path => s.answer t (.load (.manifest path)) (some (.program program))
  | .class className =>
    match s.first Stmt.isClassDef program with
    | some place => s.goto t (.addClass className place)
    | none => s.answer t (.load (.class className)) none
  | .define defineName =>
    s.answer t (.load (.define defineName)) ((s.first Stmt.isDefine program).map .stmt)

/-- The parts of the functions of the loader, each under the lock or between two of them. -/
def loading : StepSystem (LoaderState T) (T × LoaderAction) where
  step s a :=
    match s.stage a.1, a.2 with
    | .outside, .call call => some (s.goto a.1 call.start)
    | .checkClass className, .proceed =>
      match s.loadedClasses.find className with
      | some place => some (s.answer a.1 (.load (.class className)) (some (.stmt place)))
      | none => some (s.goto a.1 (.resolve (.class className)))
    | .resolve task, .stat found =>
      if found then some (s.goto a.1 (.checkManifest (task.path loader) task))
      else some (s.answer a.1 (.load task) none)
    | .checkManifest path task, .proceed =>
      match s.parsedManifests.find path with
      | some program =>
        some { s.goto a.1 (.pick path program task) with loads := s.loads ++ [(path, program)] }
      | none => some (s.goto a.1 (.parse path task))
    | .parse _ task, .parsed none => some (s.answer a.1 (.load task) none)
    | .parse path task, .parsed (some stmts) =>
      some { s.goto a.1 (.addManifest path s.programs.length task) with
        programs := s.programs ++ [stmts] }
    | .addManifest path program task, .proceed =>
      match s.parsedManifests.find path with
      | some cached =>
        some { s.goto a.1 (.pick path cached task) with
          destroyed := s.destroyed ++ [program], loads := s.loads ++ [(path, cached)] }
      | none =>
        some { s.goto a.1 (.lint path program task) with
          parsedManifests := s.parsedManifests.claim path program }
    | .lint path program task, .proceed =>
      some { s.goto a.1 (.pick path program task) with
        linted := s.linted ++ [(a.1, path, program)], loads := s.loads ++ [(path, program)] }
    | .pick _ program task, .proceed => some (pickStmt s a.1 program task)
    | .addClass className place, .proceed =>
      match s.loadedClasses.find className with
      | some cached => some (s.answer a.1 (.load (.class className)) (some (.stmt cached)))
      | none =>
        some { s.answer a.1 (.load (.class className)) (some (.stmt place)) with
          loadedClasses := s.loadedClasses.claim className place }
    | .checkFunction funcName, .proceed =>
      match s.customFunctions.find funcName with
      | some found => some (s.answer a.1 (.function funcName) (some (.exists found)))
      | none => some (s.goto a.1 (.search funcName))
    | .search funcName, .searched none => some (s.answer a.1 (.function funcName) none)
    | .search funcName, .searched (some found) => some (s.goto a.1 (.addFunction funcName found))
    | .addFunction funcName found, .proceed =>
      match s.customFunctions.find funcName with
      | some cached => some (s.answer a.1 (.function funcName) (some (.exists cached)))
      | none =>
        some { s.answer a.1 (.function funcName) (some (.exists found)) with
          customFunctions := s.customFunctions.claim funcName found }
    | _, _ => none

end System

/-- Where a thread stands with regard to the table of the manifests. -/
def LoaderStage.memo : LoaderStage → MemoStage String ℕ
  | .parse path _ => .working path
  | .addManifest path program _ => .adding path program
  | .lint path program _ => .following path program
  | _ => .outside

theorem LoaderStage.memo_eq_following {stage : LoaderStage} {path : String} {program : ℕ}
    (h : stage.memo = .following path program) : ∃ task, stage = .lint path program task := by
  cases stage <;> cases h
  exact ⟨_, rfl⟩

/-! ### What a step can do -/

namespace LoaderState

variable {T : Type} [DecidableEq T] {loader : Loader} {s s' : LoaderState T} {t : T}
  {a : LoaderAction}

/-- What a step can do. -/
inductive Moves (loader : Loader) (s : LoaderState T) (t : T) : LoaderState T → Prop
  | call (call : LoadCall) : s.stage t = .outside → Moves loader s t (s.goto t call.start)
  | classHit (name : String) (place : StmtPlace) : s.stage t = .checkClass name →
      s.loadedClasses.find name = some place →
      Moves loader s t (s.answer t (.load (.class name)) (some (.stmt place)))
  | classMiss (name : String) : s.stage t = .checkClass name →
      Moves loader s t (s.goto t (.resolve (.class name)))
  | resolved (task : LoadTask) : s.stage t = .resolve task →
      Moves loader s t (s.goto t (.checkManifest (task.path loader) task))
  | unresolved (task : LoadTask) : s.stage t = .resolve task →
      Moves loader s t (s.answer t (.load task) none)
  | manifestHit (path : String) (program : ℕ) (task : LoadTask) :
      s.stage t = .checkManifest path task → s.parsedManifests.find path = some program →
      Moves loader s t
        { s.goto t (.pick path program task) with loads := s.loads ++ [(path, program)] }
  | manifestMiss (path : String) (task : LoadTask) : s.stage t = .checkManifest path task →
      s.parsedManifests.find path = none → Moves loader s t (s.goto t (.parse path task))
  | unparsed (path : String) (task : LoadTask) : s.stage t = .parse path task →
      Moves loader s t (s.answer t (.load task) none)
  | parsed (path : String) (task : LoadTask) (stmts : List Stmt) : s.stage t = .parse path task →
      Moves loader s t { s.goto t (.addManifest path s.programs.length task) with
        programs := s.programs ++ [stmts] }
  | manifestLost (path : String) (program cached : ℕ) (task : LoadTask) :
      s.stage t = .addManifest path program task → s.parsedManifests.find path = some cached →
      Moves loader s t { s.goto t (.pick path cached task) with
        destroyed := s.destroyed ++ [program], loads := s.loads ++ [(path, cached)] }
  | manifestWon (path : String) (program : ℕ) (task : LoadTask) :
      s.stage t = .addManifest path program task → s.parsedManifests.find path = none →
      Moves loader s t { s.goto t (.lint path program task) with
        parsedManifests := s.parsedManifests.claim path program }
  | lint (path : String) (program : ℕ) (task : LoadTask) : s.stage t = .lint path program task →
      Moves loader s t { s.goto t (.pick path program task) with
        linted := s.linted ++ [(t, path, program)], loads := s.loads ++ [(path, program)] }
  | pick (path : String) (program : ℕ) (task : LoadTask) : s.stage t = .pick path program task →
      Moves loader s t (pickStmt s t program task)
  | classLost (name : String) (place cached : StmtPlace) : s.stage t = .addClass name place →
      s.loadedClasses.find name = some cached →
      Moves loader s t (s.answer t (.load (.class name)) (some (.stmt cached)))
  | classWon (name : String) (place : StmtPlace) : s.stage t = .addClass name place →
      s.loadedClasses.find name = none →
      Moves loader s t { s.answer t (.load (.class name)) (some (.stmt place)) with
        loadedClasses := s.loadedClasses.claim name place }
  | functionHit (name : String) (found : Bool) : (s.stage t).memo = .outside →
      s.customFunctions.find name = some found →
      Moves loader s t (s.answer t (.function name) (some (.exists found)))
  | functionMiss (name : String) : s.stage t = .checkFunction name →
      Moves loader s t (s.goto t (.search name))
  | unsearched (name : String) : s.stage t = .search name →
      Moves loader s t (s.answer t (.function name) none)
  | searched (name : String) (found : Bool) : s.stage t = .search name →
      Moves loader s t (s.goto t (.addFunction name found))
  | functionWon (name : String) (found : Bool) : s.stage t = .addFunction name found →
      s.customFunctions.find name = none →
      Moves loader s t { s.answer t (.function name) (some (.exists found)) with
        customFunctions := s.customFunctions.claim name found }

theorem moves_of_step (h : (loading loader).step s (t, a) = some s') : Moves loader s t s' := by
  cases hstage : s.stage t <;> cases a <;> simp only [loading, hstage] at h
  case outside.call call => exact Option.some.inj h ▸ .call call hstage
  case checkClass.proceed name =>
    cases hfind : s.loadedClasses.find name <;> rw [hfind] at h
    · exact Option.some.inj h ▸ .classMiss name hstage
    · exact Option.some.inj h ▸ .classHit name _ hstage hfind
  case resolve.stat task found =>
    split at h
    · exact Option.some.inj h ▸ .resolved task hstage
    · exact Option.some.inj h ▸ .unresolved task hstage
  case checkManifest.proceed path task =>
    cases hfind : s.parsedManifests.find path <;> rw [hfind] at h
    · exact Option.some.inj h ▸ .manifestMiss path task hstage hfind
    · exact Option.some.inj h ▸ .manifestHit path _ task hstage hfind
  case parse.parsed path task stmts =>
    cases stmts with
    | none => exact Option.some.inj h ▸ .unparsed path task hstage
    | some stmts => exact Option.some.inj h ▸ .parsed path task stmts hstage
  case addManifest.proceed path program task =>
    cases hfind : s.parsedManifests.find path <;> rw [hfind] at h
    · exact Option.some.inj h ▸ .manifestWon path program task hstage hfind
    · exact Option.some.inj h ▸ .manifestLost path program _ task hstage hfind
  case lint.proceed path program task =>
    exact Option.some.inj h ▸ .lint path program task hstage
  case pick.proceed path program task =>
    exact Option.some.inj h ▸ .pick path program task hstage
  case addClass.proceed name place =>
    cases hfind : s.loadedClasses.find name <;> rw [hfind] at h
    · exact Option.some.inj h ▸ .classWon name place hstage hfind
    · exact Option.some.inj h ▸ .classLost name place _ hstage hfind
  case checkFunction.proceed name =>
    cases hfind : s.customFunctions.find name <;> rw [hfind] at h
    · exact Option.some.inj h ▸ .functionMiss name hstage
    · exact Option.some.inj h ▸ .functionHit name _ (by rw [hstage]; rfl) hfind
  case search.searched name found =>
    cases found with
    | none => exact Option.some.inj h ▸ .unsearched name hstage
    | some found => exact Option.some.inj h ▸ .searched name found hstage
  case addFunction.proceed name found =>
    cases hfind : s.customFunctions.find name <;> rw [hfind] at h
    · exact Option.some.inj h ▸ .functionWon name found hstage hfind
    · exact Option.some.inj h ▸ .functionHit name _ (by rw [hstage]; rfl) hfind
  all_goals cases h

end LoaderState

/-! ### The table of the manifests -/

namespace LoaderState

variable {T : Type} [DecidableEq T] {loader : Loader} {s s' : LoaderState T} {t : T}
  {a : LoaderAction}

/-- The table of the manifests and the threads, as threads that share a table of results. -/
def memo (s : LoaderState T) : MemoState T String ℕ where
  table := s.parsedManifests
  stage t := (s.stage t).memo
  made := List.range s.programs.length
  discarded := s.destroyed
  followed := s.linted.map Prod.snd
  answers := s.loads

theorem memo_goto (s : LoaderState T) (t : T) (stage : LoaderStage) :
    (s.goto t stage).memo = s.memo.goto t stage.memo := by
  simp only [memo, goto, MemoState.goto, MemoState.mk.injEq, true_and, and_true]
  exact Function.comp_update LoaderStage.memo s.stage t stage

theorem stage_memo_goto (s : LoaderState T) (t : T) (stage : LoaderStage) :
    (s.memo.goto t stage.memo).stage = (s.goto t stage).memo.stage :=
  congrArg MemoState.stage (memo_goto s t stage).symm

/-- A thread that moves on between stages of the same kind is not seen. -/
theorem memo_goto_of_eq (stage : LoaderStage) (h : (s.stage t).memo = stage.memo) :
    (s.goto t stage).memo = s.memo := by
  rw [memo_goto, ← h]
  exact congrArg (MemoState.mk _ · _ _ _ _) (Function.update_eq_self t s.memo.stage)

theorem memo_answer (h : (s.stage t).memo = .outside) (call : LoadCall)
    (result : Option LoadResult) : (s.answer t call result).memo = s.memo :=
  memo_goto_of_eq .outside h

/-- A step is one of the threads that share the table of the manifests, or is not seen by them. -/
theorem memo_of_moves (h : Moves loader s t s') :
    s'.memo = s.memo ∨ ∃ b, MemoState.Moves s.memo t b s'.memo ∧ s.memo.Anew (t, b) := by
  have hmemo (stage : LoaderStage) (hstage : s.stage t = stage) : s.memo.stage t = stage.memo :=
    congrArg LoaderStage.memo hstage
  cases h with
  | call call hstage =>
    refine .inl (memo_goto_of_eq _ ?_)
    rw [hstage]
    cases call with
    | load task => cases task <;> rfl
    | function name => rfl
  | classHit name place hstage hfind => exact .inl (memo_answer (by rw [hstage]; rfl) _ _)
  | classMiss name hstage => exact .inl (memo_goto_of_eq _ (by rw [hstage]; rfl))
  | resolved task hstage => exact .inl (memo_goto_of_eq _ (by rw [hstage]; rfl))
  | unresolved task hstage => exact .inl (memo_answer (by rw [hstage]; rfl) _ _)
  | manifestHit path program task hstage hfind =>
    refine .inr ⟨.look path, ?_, by rintro v ⟨⟩⟩
    have hgoto : s.memo.stage = (s.goto t (.pick path program task)).memo.stage :=
      congrArg MemoState.stage (memo_goto_of_eq _ (by rw [hstage]; rfl)).symm
    refine (MemoState.Moves.hit path program (hmemo _ hstage) hfind).to_eq ?_
    exact MemoState.ext rfl hgoto rfl rfl rfl rfl
  | manifestMiss path task hstage hfind =>
    refine .inr ⟨.look path, ?_, by rintro v ⟨⟩⟩
    exact (MemoState.Moves.miss path (hmemo _ hstage) hfind).to_eq
      (memo_goto s t (.parse path task)).symm
  | unparsed path task hstage =>
    refine .inr ⟨.giveUp, ?_, by rintro v ⟨⟩⟩
    exact (MemoState.Moves.giveUp path (hmemo _ hstage)).to_eq (memo_goto s t .outside).symm
  | parsed path task stmts hstage =>
    refine .inr ⟨.work s.programs.length, ?_, ?_⟩
    · refine (MemoState.Moves.work path s.programs.length (hmemo _ hstage)).to_eq ?_
      refine MemoState.ext rfl
        (stage_memo_goto s t (.addManifest path s.programs.length task)) ?_ rfl rfl rfl
      simp only [memo, List.length_append, List.length_singleton, List.range_succ]
    · rintro v ⟨⟩ hmem
      exact absurd (List.mem_range.1 hmem) (Nat.lt_irrefl _)
  | manifestLost path program cached task hstage hfind =>
    refine .inr ⟨.add, ?_, by rintro v ⟨⟩⟩
    refine (MemoState.Moves.lose path program cached (hmemo _ hstage) hfind).to_eq ?_
    exact MemoState.ext rfl (stage_memo_goto s t (.pick path cached task)) rfl rfl rfl rfl
  | manifestWon path program task hstage hfind =>
    refine .inr ⟨.add, ?_, by rintro v ⟨⟩⟩
    refine (MemoState.Moves.win path program (hmemo _ hstage) hfind).to_eq ?_
    exact MemoState.ext rfl (stage_memo_goto s t (.lint path program task)) rfl rfl rfl rfl
  | lint path program task hstage =>
    refine .inr ⟨.follow, ?_, by rintro v ⟨⟩⟩
    refine (MemoState.Moves.follow path program (hmemo _ hstage)).to_eq ?_
    refine MemoState.ext rfl (stage_memo_goto s t (.pick path program task)) rfl rfl ?_ rfl
    simp only [memo, List.map_append, List.map_cons, List.map_nil]
  | pick path program task hstage =>
    have hout : (s.stage t).memo = .outside := by rw [hstage]; rfl
    refine .inl ?_
    cases task with
    | manifest path => exact memo_answer hout _ _
    | «class» name =>
      rw [pickStmt]
      split
      · exact memo_goto_of_eq _ hout
      · exact memo_answer hout _ _
    | define name => exact memo_answer hout _ _
  | classLost name place cached hstage hfind => exact .inl (memo_answer (by rw [hstage]; rfl) _ _)
  | classWon name place hstage hfind =>
    exact .inl (memo_goto_of_eq .outside (by rw [hstage]; rfl))
  | functionHit name found hstage hfind => exact .inl (memo_answer hstage _ _)
  | functionMiss name hstage => exact .inl (memo_goto_of_eq _ (by rw [hstage]; rfl))
  | unsearched name hstage => exact .inl (memo_answer (by rw [hstage]; rfl) _ _)
  | searched name found hstage => exact .inl (memo_goto_of_eq _ (by rw [hstage]; rfl))
  | functionWon name found hstage hfind =>
    exact .inl (memo_goto_of_eq .outside (by rw [hstage]; rfl))

/-! ### The other tables -/

/-- The tables and the programs of one state are in those of another one. -/
structure Grows (s s' : LoaderState T) : Prop where
  manifests : s.parsedManifests ≤ s'.parsedManifests
  classes : s.loadedClasses ≤ s'.loadedClasses
  functions : s.customFunctions ≤ s'.customFunctions
  programs : s.programs <+: s'.programs

/-- A statement is the first of its kind in the program that the table has for a file. -/
def PlaceBacked (s : LoaderState T) (kind : Stmt → Bool) (path : String) (place : StmtPlace) :
    Prop :=
  s.parsedManifests.find path = some place.program ∧ s.first kind place.program = some place

/-- A result is what the tables have. -/
def ResultBacked (loader : Loader) (s : LoaderState T) : LoadCall → LoadResult → Prop
  | .load (.manifest path), .program program => s.parsedManifests.find path = some program
  | .load (.class name), .stmt place =>
    s.loadedClasses.find name = some place ∧
      s.PlaceBacked Stmt.isClassDef (loader.classPath name) place
  | .load (.define name), .stmt place =>
    s.PlaceBacked Stmt.isDefine (loader.classPath name) place
  | .function name, .exists found => s.customFunctions.find name = some found
  | _, _ => False

/-- What a thread has in hand is what the tables have. -/
def StageBacked (loader : Loader) (s : LoaderState T) : LoaderStage → Prop
  | .checkManifest path task => path = task.path loader
  | .parse path task => path = task.path loader
  | .addManifest path _ task => path = task.path loader
  | .lint path program task =>
    path = task.path loader ∧ s.parsedManifests.find path = some program
  | .pick path program task =>
    path = task.path loader ∧ s.parsedManifests.find path = some program
  | .addClass name place => s.PlaceBacked Stmt.isClassDef (loader.classPath name) place
  | _ => True

/-- What the threads have in hand, the classes and the answers are what the tables have. -/
structure Backed (loader : Loader) (s : LoaderState T) : Prop where
  stages : ∀ t, s.StageBacked loader (s.stage t)
  classes : ∀ name place, s.loadedClasses.find name = some place →
    s.PlaceBacked Stmt.isClassDef (loader.classPath name) place
  answers : ∀ t call result, (t, call, some result) ∈ s.answers →
    s.ResultBacked loader call result

section Grows

variable {kind : Stmt → Bool} {path : String} {place : StmtPlace} {call : LoadCall}
  {result : LoadResult} {stage : LoaderStage}

omit [DecidableEq T] in
theorem PlaceBacked.mono (h : s.PlaceBacked kind path place) (hs : s.Grows s') :
    s'.PlaceBacked kind path place := by
  refine ⟨Memo.find_of_le hs.manifests h.1, ?_⟩
  obtain ⟨more, hmore⟩ := hs.programs
  have hlt : place.program < s.programs.length := by
    by_contra hge
    have hnone : s.stmts place.program = [] := List.getD_eq_default _ _ (Nat.le_of_not_lt hge)
    have hfirst := h.2
    rw [first, hnone] at hfirst
    exact absurd hfirst (by simp)
  have hsame : s'.stmts place.program = s.stmts place.program := by
    rw [stmts, stmts, ← hmore, List.getD_append _ _ _ _ hlt]
  rw [first, hsame]
  exact h.2

omit [DecidableEq T] in
theorem ResultBacked.mono (h : s.ResultBacked loader call result) (hs : s.Grows s') :
    s'.ResultBacked loader call result := by
  obtain ⟨_ | _ | _⟩ | _ := call <;> cases result
  case load.manifest.program => exact Memo.find_of_le hs.manifests h
  case load.class.stmt => exact ⟨Memo.find_of_le hs.classes h.1, h.2.mono hs⟩
  case load.define.stmt => exact PlaceBacked.mono h hs
  case function.exists => exact Memo.find_of_le hs.functions h
  all_goals exact h

omit [DecidableEq T] in
theorem StageBacked.mono (h : s.StageBacked loader stage) (hs : s.Grows s') :
    s'.StageBacked loader stage := by
  cases stage
  case lint => exact ⟨h.1, Memo.find_of_le hs.manifests h.2⟩
  case pick => exact ⟨h.1, Memo.find_of_le hs.manifests h.2⟩
  case addClass => exact PlaceBacked.mono h hs
  all_goals exact h

omit [DecidableEq T] in
/-- The tables and the programs may grow by classes that are backed. -/
theorem Backed.grow (hb : s.Backed loader) (hs : s.Grows s') (hstage : s'.stage = s.stage)
    (hanswers : s'.answers = s.answers)
    (hclasses : ∀ name place, s'.loadedClasses.find name = some place →
      s.loadedClasses.find name = some place ∨
        s'.PlaceBacked Stmt.isClassDef (loader.classPath name) place) : s'.Backed loader where
  stages t := hstage ▸ (hb.stages t).mono hs
  classes name place h :=
    (hclasses name place h).elim (fun h ↦ (hb.classes name place h).mono hs) id
  answers t call result h := (hb.answers t call result (hanswers ▸ h)).mono hs

theorem Backed.goto (hb : s.Backed loader) (stage : LoaderStage)
    (h : s.StageBacked loader stage) :
    (s.goto t stage).Backed loader where
  stages t' := by
    by_cases ht : t' = t
    · subst ht
      have hself : (s.goto t' stage).stage t' = stage := Function.update_self ..
      rw [hself]
      exact h
    · have hother : (s.goto t stage).stage t' = s.stage t' := Function.update_of_ne ht ..
      rw [hother]
      exact hb.stages t'
  classes := hb.classes
  answers := hb.answers

theorem Backed.answer {result : Option LoadResult} (hb : s.Backed loader)
    (h : ∀ r, result = some r → s.ResultBacked loader call r) :
    (s.answer t call result).Backed loader where
  stages := (hb.goto .outside trivial).stages
  classes := hb.classes
  answers t' call' r hmem := by
    obtain hmem | hmem := List.mem_append.1 hmem
    · exact hb.answers t' call' r hmem
    · obtain ⟨rfl, hrest⟩ := Prod.mk.inj (List.mem_singleton.1 hmem)
      obtain ⟨rfl, hresult⟩ := Prod.mk.inj hrest
      exact h r hresult.symm

end Grows

omit [DecidableEq T] in
theorem grows_claim_manifest (s : LoaderState T) (path : String) (program : ℕ) :
    s.Grows { s with parsedManifests := s.parsedManifests.claim path program } :=
  ⟨Memo.le_claim _ path program, le_rfl, le_rfl, List.prefix_refl _⟩

theorem Backed.pick {path : String} {program : ℕ} {task : LoadTask} (hb : s.Backed loader)
    (hpath : path = task.path loader) (hfind : s.parsedManifests.find path = some program) :
    (pickStmt s t program task).Backed loader := by
  subst hpath
  have hplace (kind : Stmt → Bool) (place : StmtPlace) (h : s.first kind program = some place) :
      s.PlaceBacked kind (task.path loader) place := by
    obtain ⟨i, -, rfl⟩ := Option.map_eq_some_iff.1 h
    exact ⟨hfind, h⟩
  cases task with
  | manifest path =>
    refine hb.answer fun r hr ↦ ?_
    obtain rfl := Option.some.inj hr
    exact hfind
  | «class» name =>
    rw [pickStmt]
    split
    case h_1 place h => exact hb.goto _ (hplace _ place h)
    case h_2 h => exact hb.answer (by rintro r ⟨⟩)
  | define name =>
    refine hb.answer fun r hr ↦ ?_
    obtain ⟨place, h, rfl⟩ := Option.map_eq_some_iff.1 hr
    exact hplace _ place h

theorem Backed.step (hb : s.Backed loader) (h : Moves loader s t s') : s'.Backed loader := by
  have hstage (stage : LoaderStage) (hstage : s.stage t = stage) : s.StageBacked loader stage :=
    hstage ▸ hb.stages t
  have hsame {s₁ : LoaderState T} (hs : s.Grows s₁) (h₁ : s₁.stage = s.stage)
      (h₂ : s₁.answers = s.answers) (h₃ : s₁.loadedClasses = s.loadedClasses) :
      s₁.Backed loader :=
    hb.grow hs h₁ h₂ fun name place hfind ↦ .inl (h₃ ▸ hfind)
  cases h with
  | call call hout =>
    refine hb.goto _ ?_
    cases call with
    | load task => cases task <;> trivial
    | function name => trivial
  | classHit name place hcheck hfind =>
    refine hb.answer fun r hr ↦ ?_
    obtain rfl := Option.some.inj hr
    exact ⟨hfind, hb.classes name place hfind⟩
  | classMiss name hcheck => exact hb.goto _ trivial
  | resolved task hres => exact hb.goto _ rfl
  | unresolved task hres => exact hb.answer (by rintro r ⟨⟩)
  | manifestHit path program task hcheck hfind =>
    have hb₁ : Backed loader { s with loads := s.loads ++ [(path, program)] } :=
      hsame ⟨le_rfl, le_rfl, le_rfl, List.prefix_refl _⟩ rfl rfl rfl
    exact hb₁.goto _ ⟨hstage _ hcheck, hfind⟩
  | manifestMiss path task hcheck hfind =>
    exact hb.goto (.parse path task) (hstage (.checkManifest path task) hcheck)
  | unparsed path task hparse => exact hb.answer (by rintro r ⟨⟩)
  | parsed path task stmts hparse =>
    have hb₁ : Backed loader { s with programs := s.programs ++ [stmts] } :=
      hsame ⟨le_rfl, le_rfl, le_rfl, List.prefix_append ..⟩ rfl rfl rfl
    exact hb₁.goto (.addManifest path s.programs.length task) (hstage _ hparse)
  | manifestLost path program cached task hadd hfind =>
    have hb₁ : Backed loader { s with
        destroyed := s.destroyed ++ [program], loads := s.loads ++ [(path, cached)] } :=
      hsame ⟨le_rfl, le_rfl, le_rfl, List.prefix_refl _⟩ rfl rfl rfl
    exact hb₁.goto _ ⟨hstage _ hadd, hfind⟩
  | manifestWon path program task hadd hfind =>
    have hb₁ := hsame (grows_claim_manifest s path program) rfl rfl rfl
    exact hb₁.goto _ ⟨hstage _ hadd, Memo.find_claim_self hfind⟩
  | lint path program task hlint =>
    have hb₁ : Backed loader { s with
        linted := s.linted ++ [(t, path, program)], loads := s.loads ++ [(path, program)] } :=
      hsame ⟨le_rfl, le_rfl, le_rfl, List.prefix_refl _⟩ rfl rfl rfl
    exact hb₁.goto _ (hstage _ hlint)
  | pick path program task hpick => exact hb.pick (hstage _ hpick).1 (hstage _ hpick).2
  | classLost name place cached hadd hfind =>
    refine hb.answer fun r hr ↦ ?_
    obtain rfl := Option.some.inj hr
    exact ⟨hfind, hb.classes name cached hfind⟩
  | classWon name place hadd hfind =>
    have hplace := hstage _ hadd
    have hgrows : s.Grows { s with loadedClasses := s.loadedClasses.claim name place } :=
      ⟨le_rfl, Memo.le_claim _ name place, le_rfl, List.prefix_refl _⟩
    have hb₁ : Backed loader { s with loadedClasses := s.loadedClasses.claim name place } := by
      refine hb.grow hgrows rfl rfl fun name' place' hfind' ↦ ?_
      obtain hold | ⟨rfl, rfl⟩ := Memo.find_claim hfind hfind'
      · exact .inl hold
      · exact .inr (PlaceBacked.mono hplace hgrows)
    refine hb₁.answer fun r hr ↦ ?_
    obtain rfl := Option.some.inj hr
    exact ⟨Memo.find_claim_self hfind, PlaceBacked.mono hplace hgrows⟩
  | functionHit name found hcheck hfind =>
    refine hb.answer fun r hr ↦ ?_
    obtain rfl := Option.some.inj hr
    exact hfind
  | functionMiss name hcheck => exact hb.goto _ trivial
  | unsearched name hsearch => exact hb.answer (by rintro r ⟨⟩)
  | searched name found hsearch => exact hb.goto _ trivial
  | functionWon name found hadd hfind =>
    have hb₁ : Backed loader { s with customFunctions := s.customFunctions.claim name found } :=
      hsame ⟨le_rfl, le_rfl, Memo.le_claim _ name found, List.prefix_refl _⟩ rfl rfl rfl
    refine hb₁.answer fun r hr ↦ ?_
    obtain rfl := Option.some.inj hr
    exact Memo.find_claim_self hfind

omit [DecidableEq T] in
theorem backed_initial : (initial : LoaderState T).Backed loader where
  stages _ := trivial
  classes := by rintro name place ⟨⟩
  answers _ _ _ h := absurd h List.not_mem_nil

/-- The invariant of all tables. -/
structure Consistent (loader : Loader) (s : LoaderState T) : Prop where
  sound : s.memo.Sound
  owned : s.memo.Owned
  backed : s.Backed loader

theorem Consistent.step (h : s.Consistent loader)
    (hstep : (loading loader).step s (t, a) = some s') : s'.Consistent loader := by
  have hmoves := moves_of_step hstep
  obtain hsame | ⟨b, hmove, hanew⟩ := memo_of_moves hmoves
  · exact ⟨hsame ▸ h.sound, hsame ▸ h.owned, h.backed.step hmoves⟩
  · have hmemo := MemoState.step_of_moves hmove
    exact ⟨h.sound.step hmemo, h.owned.step hanew hmemo, h.backed.step hmoves⟩

omit [DecidableEq T] in
theorem consistent_initial : (initial : LoaderState T).Consistent loader := by
  have hmemo : (initial : LoaderState T).memo = MemoState.initial := rfl
  exact ⟨hmemo ▸ MemoState.sound_initial, hmemo ▸ MemoState.owned_initial, backed_initial⟩

theorem consistent_of_run {as : List (T × LoaderAction)}
    (h : (loading loader).run initial as = some s) : s.Consistent loader :=
  StepSystem.Along.invariant (fun _ _ _ hs _ hstep ↦ Consistent.step hs hstep)
    (StepSystem.along_of_forall_mem fun _ _ _ ↦ trivial) consistent_initial h

omit [DecidableEq T] in
/-- One call has one result. -/
theorem ResultBacked.unique {call : LoadCall} {r r' : LoadResult}
    (h : s.ResultBacked loader call r) (h' : s.ResultBacked loader call r') : r = r' := by
  have hplace {kind : Stmt → Bool} {path : String} {place place' : StmtPlace}
      (h : s.PlaceBacked kind path place) (h' : s.PlaceBacked kind path place') :
      place = place' := by
    have hprogram := Option.some.inj (h.1.symm.trans h'.1)
    exact Option.some.inj (h.2.symm.trans (hprogram ▸ h'.2))
  obtain ⟨_ | _ | _⟩ | _ := call <;> cases r <;> cases r' <;> try exact h.elim
  case load.manifest.program.program =>
    exact congrArg _ (Option.some.inj (Eq.trans (Eq.symm h) h'))
  case load.class.stmt.stmt => exact congrArg _ (hplace h.2 h'.2)
  case load.define.stmt.stmt => exact congrArg _ (hplace h h')
  case function.exists.exists => exact congrArg _ (Option.some.inj (Eq.trans (Eq.symm h) h'))
  all_goals exact h'.elim

omit [DecidableEq T] in
/-- A program that a result is in is in the table of the manifests. -/
theorem ResultBacked.mem_values {call : LoadCall} {r : LoadResult} {program : ℕ}
    (h : s.ResultBacked loader call r) (hr : r.program? = some program) :
    program ∈ s.parsedManifests.entries.map Prod.snd := by
  have hmem {path : String} (hfind : s.parsedManifests.find path = some program) :
      program ∈ s.parsedManifests.entries.map Prod.snd :=
    List.mem_map_of_mem (Memo.mem_entries_of_find hfind)
  cases r
  case program p =>
    obtain rfl := Option.some.inj hr
    obtain ⟨_ | _ | _⟩ | _ := call
    case load.manifest => exact hmem h
    all_goals exact h.elim
  case stmt place =>
    obtain rfl := Option.some.inj hr
    obtain ⟨_ | _ | _⟩ | _ := call
    case load.class => exact hmem h.2.1
    case load.define => exact hmem h.1
    all_goals exact h.elim
  case «exists» found => exact absurd hr (by simp [LoadResult.program?])

/-- What linting the facts of a manifest reports; the entry `site.pp` is not linted here. -/
def lintOf (loader : Loader) (s : LoaderState T) (path : String) (program : ℕ) :
    List Diagnostic :=
  if loader.isEntrySite path then [] else loader.lintLegacyFacts (s.stmts program)

/-- What the threads counted. -/
def reported (loader : Loader) (s : LoaderState T) : List (T × Diagnostic) :=
  s.linted.flatMap fun e ↦ (s.lintOf loader e.2.1 e.2.2).map (e.1, ·)

end LoaderState

section Results

variable {T : Type} [DecidableEq T] {loader : Loader} {s : LoaderState T}
  {as : List (T × LoaderAction)}

/-- **Threads share what is loaded.** In every run of any number of threads two calls that ask for
the same get the same program, statement or answer, whenever they come; and a program that any of
them got, or whose statement it got, was parsed and is not destroyed. -/
theorem shared_loads_agree (hrun : (loading loader).run .initial as = some s) :
    (∀ t t' call r r', (t, call, some r) ∈ s.answers → (t', call, some r') ∈ s.answers →
      r = r') ∧
    ∀ t call r program, (t, call, some r) ∈ s.answers → r.program? = some program →
      program < s.programs.length ∧ program ∉ s.destroyed := by
  obtain ⟨-, howned, hbacked⟩ := LoaderState.consistent_of_run hrun
  refine ⟨fun t t' call r r' h h' ↦ ?_, fun t call r program h hr ↦ ?_⟩
  · exact (hbacked.answers t call r h).unique (hbacked.answers t' call r' h')
  · have htable := howned.table program ((hbacked.answers t call r h).mem_values hr)
    exact ⟨List.mem_range.1 htable.1, htable.2⟩

/-- A loader all of whose files are empty. -/
def emptyFiles : Loader where
  modulesPath := "modules"
  manifestsPath := none
  fileExists _ := true
  parseFile _ := some []
  lintLegacyFacts _ := []
  puppet8Incompatible _ := none
  hasCustomFunction _ := false

/-- Two threads that parse one file at the same time. -/
def parseTwice : List (Bool × LoaderAction) :=
  [(true, .call (.load (.manifest "a.pp"))), (false, .call (.load (.manifest "a.pp"))),
    (true, .proceed), (false, .proceed), (false, .parsed (some [])), (true, .parsed (some [])),
    (true, .proceed), (true, .proceed), (true, .proceed), (false, .proceed), (false, .proceed)]

theorem shared_loads_agree_parseTwice :
    ∃ s, (loading emptyFiles).run .initial parseTwice = some s ∧ s.destroyed = [0] ∧
      s.answers.map Prod.fst = [true, false] ∧
      ∀ t t' call r r',
        (t, call, some r) ∈ s.answers → (t', call, some r') ∈ s.answers → r = r' := by
  have hrun : (loading emptyFiles).run .initial parseTwice = some _ := rfl
  exact ⟨_, hrun, rfl, rfl, (shared_loads_agree hrun).1⟩

end Results

end PuppetC
