import PuppetC.Node.Selection
import PuppetC.Support.TaskPool

/-!
# Nodes in parallel

With `-P` the nodes of the facts database are executed by one thread each. A thread writes what it
logs to a buffer of its own; when all threads are over, the buffers go to standard error in the
order of the facts database and the counters are added up. Without `-P` the nodes are executed one
after the other, and the first that fails is the last that is executed.

What executing a node logs enters as `logs`, the same in both modes. Texts are lists of bytes.

## Main definitions

* `OutputBuffer`, `OutputBuffer.printf`: `puppet_env_buffer_init`, `puppet_env_buffer_printf`.
* `ExecEnv.execNodeForCertname`: `puppet_exec_node_for_certname`, as far as it logs and counts.
* `parallelNodes`: `parallel_node_worker` and `puppet_exec_nodes_parallel`.
* `execNodesSequential`: the loop of `puppet_exec_program` over the facts database.

## Main results

* `parallel_nodes_report`: in any order of the threads' steps, the counters and the output are those
  of the nodes executed alone, in the order of the facts database.
* `parallel_sequential_totals_iff`: when both modes count the same.
-/

namespace PuppetC

/-! ### Output buffers -/

/-- `while (capacity < needed) capacity *= 2`; a capacity is not 0. -/
def growCapacity (capacity needed : ℕ) : ℕ :=
  if 0 < capacity ∧ capacity < needed then growCapacity (capacity * 2) needed else capacity
termination_by needed - capacity
decreasing_by omega

theorem le_growCapacity {capacity : ℕ} (h : 0 < capacity) (needed : ℕ) :
    needed ≤ growCapacity capacity needed := by
  fun_induction growCapacity capacity needed with
  | case1 capacity hless ih => exact ih (Nat.mul_pos hless.1 Nat.two_pos)
  | case2 capacity hless => exact Nat.le_of_not_lt fun hlt ↦ hless ⟨h, hlt⟩

/-- `vsnprintf` at a cursor in a buffer: the bytes before the terminator. -/
def vsnprintfAt (data : List Char) (cursor capacity : ℕ) (text : List Char) : List Char :=
  data.take cursor ++ text.take (capacity - cursor - 1)

theorem vsnprintfAt_of_lt {data text : List Char} {cursor capacity : ℕ}
    (h : cursor + text.length < capacity) :
    vsnprintfAt data cursor capacity text = data.take cursor ++ text := by
  rw [vsnprintfAt, List.take_of_length_le (show text.length ≤ capacity - cursor - 1 by omega)]

theorem vsnprintfAt_vsnprintfAt {data text text' : List Char} {cursor capacity capacity' : ℕ}
    (h : data.length = cursor) :
    vsnprintfAt (vsnprintfAt data cursor capacity text) cursor capacity' text' =
      vsnprintfAt data cursor capacity' text' := by
  have hwhole : (data.take cursor).length = cursor := by rw [List.take_of_length_le h.le, h]
  rw [vsnprintfAt, vsnprintfAt, vsnprintfAt, List.take_left' hwhole]

/-- `output_buffer` with its capacity and its size; the size leaves room for the terminator. -/
structure OutputBuffer where
  data : List Char
  size : ℕ
  capacity : ℕ
  length_data : data.length = size
  size_lt : size < capacity

/-- `puppet_env_buffer_init`. -/
def OutputBuffer.init : OutputBuffer := ⟨[], 0, 8192, rfl, by decide⟩

/-- `puppet_env_buffer_printf`: a text that does not fit is written again, to a larger buffer. -/
def OutputBuffer.printf (b : OutputBuffer) (text : List Char) : OutputBuffer :=
  if h : b.capacity - b.size ≤ text.length then
    have hgrown : b.size + text.length < growCapacity b.capacity (b.size + text.length + 1) :=
      le_growCapacity (Nat.zero_lt_of_lt b.size_lt) _
    { data := vsnprintfAt (vsnprintfAt b.data b.size b.capacity text) b.size
        (growCapacity b.capacity (b.size + text.length + 1)) text
      size := b.size + text.length
      capacity := growCapacity b.capacity (b.size + text.length + 1)
      length_data := by
        rw [vsnprintfAt_vsnprintfAt b.length_data, vsnprintfAt_of_lt hgrown, List.length_append,
          List.take_of_length_le b.length_data.le, b.length_data]
      size_lt := hgrown }
  else
    have hroom : b.size + text.length < b.capacity := by omega
    { data := vsnprintfAt b.data b.size b.capacity text
      size := b.size + text.length
      capacity := b.capacity
      length_data := by
        rw [vsnprintfAt_of_lt hroom, List.length_append, List.take_of_length_le b.length_data.le,
          b.length_data]
      size_lt := hroom }

/-- No part of a text is lost. -/
theorem OutputBuffer.printf_data (b : OutputBuffer) (text : List Char) :
    (b.printf text).data = b.data ++ text := by
  have hwhole : b.data.take b.size = b.data := List.take_of_length_le b.length_data.le
  rw [printf]
  split_ifs with h
  · have hgrown : b.size + text.length < growCapacity b.capacity (b.size + text.length + 1) :=
      le_growCapacity (Nat.zero_lt_of_lt b.size_lt) _
    exact (vsnprintfAt_vsnprintfAt b.length_data).trans
      ((vsnprintfAt_of_lt hgrown).trans (congrArg (· ++ text) hwhole))
  · exact (vsnprintfAt_of_lt (by omega)).trans (congrArg (· ++ text) hwhole)

/-- Where an environment prints to: its buffer, or standard error, with what is there. -/
inductive Output where
  | buffer (b : OutputBuffer)
  | stderr (text : List Char)

/-- `puppet_env_buffer_printf`, or `fprintf` where there is no buffer. -/
def Output.printf (text : List Char) : Output → Output
  | .buffer b => .buffer (b.printf text)
  | .stderr before => .stderr (before ++ text)

/-- What was printed. -/
def Output.text : Output → List Char
  | .buffer b => b.data
  | .stderr text => text

/-- Does the environment have a buffer? -/
def Output.isBuffer : Output → Bool
  | .buffer _ => true
  | .stderr _ => false

/-- What a thread hands over of its buffer. -/
def Output.captured : Output → List Char
  | .buffer b => if 0 < b.size then b.data.take b.size else []
  | .stderr _ => []

theorem Output.captured_of_isBuffer {o : Output} (h : o.isBuffer = true) : o.captured = o.text := by
  cases o with
  | buffer b =>
    rw [captured]
    split_ifs with hsize
    · exact List.take_of_length_le b.length_data.le
    · have hzero : b.size = 0 := Nat.eq_zero_of_not_pos hsize
      exact (List.eq_nil_of_length_eq_zero (b.length_data.trans hzero)).symm
  | stderr text => exact absurd h Bool.false_ne_true

@[simp] theorem Output.isBuffer_printf (o : Output) (text : List Char) :
    (o.printf text).isBuffer = o.isBuffer := by
  cases o <;> rfl

@[simp] theorem Output.text_printf (o : Output) (text : List Char) :
    (o.printf text).text = o.text ++ text := by
  cases o with
  | buffer b => exact b.printf_data text
  | stderr before => rfl

/-! ### Executing a node -/

/-- `puppet_log_level_t`. -/
inductive LogLevel where
  | debug
  | info
  | notice
  | warning
  | error
  | critical
deriving DecidableEq

/-- A message that is logged: its level and its line. -/
structure LogMessage where
  level : LogLevel
  text : List Char

/-- What is printed in turn. -/
theorem Output.foldl_printf (o : Output) (messages : List LogMessage) :
    (messages.foldl (fun o m ↦ Output.printf m.text o) o).text =
        o.text ++ messages.flatMap LogMessage.text ∧
      (messages.foldl (fun o m ↦ Output.printf m.text o) o).isBuffer = o.isBuffer := by
  induction messages generalizing o with
  | nil => exact ⟨(List.append_nil _).symm, rfl⟩
  | cons m messages ih =>
    obtain ⟨htext, hbuffer⟩ := ih (o.printf m.text)
    rw [List.foldl_cons, htext, hbuffer, text_printf, isBuffer_printf, List.flatMap_cons,
      List.append_assoc]
    exact ⟨rfl, rfl⟩

/-- Errors fail the node. -/
def LogMessage.isError (m : LogMessage) : Bool := m.level = .error || m.level = .critical

def LogMessage.isWarning (m : LogMessage) : Bool := m.level = .warning

/-- The counters of an environment. -/
@[ext] structure NodeTotals where
  nodesProcessed : ℕ
  nodesFailed : ℕ
  errorsCount : ℕ
  warningsCount : ℕ
deriving DecidableEq

instance : Add NodeTotals where
  add m n := ⟨m.nodesProcessed + n.nodesProcessed, m.nodesFailed + n.nodesFailed,
    m.errorsCount + n.errorsCount, m.warningsCount + n.warningsCount⟩

theorem NodeTotals.add_assoc (l m n : NodeTotals) : l + m + n = l + (m + n) :=
  NodeTotals.ext (Nat.add_assoc ..) (Nat.add_assoc ..) (Nat.add_assoc ..) (Nat.add_assoc ..)

/-- The fields of an environment that count and print. -/
structure ExecEnv where
  totals : NodeTotals
  currentNodeFailed : Bool
  stopOnError : Bool
  output : Output

namespace ExecEnv

/-- An error is counted. -/
def incrementError (env : ExecEnv) : ExecEnv :=
  { env with
    totals := { env.totals with errorsCount := env.totals.errorsCount + 1 }
    currentNodeFailed := true }

/-- A warning is counted. -/
def incrementWarning (env : ExecEnv) : ExecEnv :=
  { env with totals := { env.totals with warningsCount := env.totals.warningsCount + 1 } }

def print (env : ExecEnv) (text : List Char) : ExecEnv :=
  { env with output := env.output.printf text }

/-- `puppet_log`: a message is printed and counted. -/
def log (env : ExecEnv) (m : LogMessage) : ExecEnv :=
  if m.isError then (env.print m.text).incrementError
  else if m.isWarning then (env.print m.text).incrementWarning
  else env.print m.text

/-- The beginning of `puppet_exec_node_for_certname`. -/
def beginNode (env : ExecEnv) (certname : String) : ExecEnv :=
  { env with
    totals := { env.totals with nodesProcessed := env.totals.nodesProcessed + 1 }
    currentNodeFailed := false
    output := env.output.printf (("--- Node: " ++ certname ++ " ---\n").toList) }

/-- The end of `puppet_exec_node_for_certname`. -/
def endNode (env : ExecEnv) (certname : String) : ExecEnv :=
  if env.currentNodeFailed then
    { env with
      totals := { env.totals with nodesFailed := env.totals.nodesFailed + 1 }
      stopOnError := true
      output := env.output.printf (("--- Node: " ++ certname ++ " FAILED ---\n").toList) }
  else env

/-- `puppet_exec_node_for_certname`. -/
def execNodeForCertname (env : ExecEnv) (certname : String) (messages : List LogMessage) :
    ExecEnv :=
  if env.stopOnError then env
  else (messages.foldl log (env.beginNode certname)).endNode certname

/-- The clone of `puppet_env_clone_for_node`. -/
def cloneForNode : ExecEnv := ⟨⟨0, 0, 0, 0⟩, false, false, .buffer .init⟩

end ExecEnv

/-- A node with what it logs. -/
structure NodeLog where
  certname : String
  messages : List LogMessage

namespace NodeLog

/-- A node fails with an error. -/
def fails (n : NodeLog) : Bool := n.messages.any LogMessage.isError

/-- What a node counts. -/
def totals (n : NodeLog) : NodeTotals :=
  ⟨1, if n.fails then 1 else 0, n.messages.countP LogMessage.isError,
    n.messages.countP fun m ↦ !m.isError && m.isWarning⟩

/-- What a node prints. -/
def text (n : NodeLog) : List Char :=
  ("--- Node: " ++ n.certname ++ " ---\n").toList ++ n.messages.flatMap LogMessage.text ++
    if n.fails then ("--- Node: " ++ n.certname ++ " FAILED ---\n").toList else []

end NodeLog

namespace ExecEnv

/-- What a message adds. -/
theorem log_spec (env : ExecEnv) (m : LogMessage) :
    (env.log m).totals = env.totals + ⟨0, 0, if m.isError then 1 else 0,
        if !m.isError && m.isWarning then 1 else 0⟩ ∧
      (env.log m).output = env.output.printf m.text ∧
      (env.log m).currentNodeFailed = (env.currentNodeFailed || m.isError) ∧
      (env.log m).stopOnError = env.stopOnError := by
  rw [log]
  cases m.isError
  · cases m.isWarning
    · exact ⟨rfl, rfl, (Bool.or_false _).symm, rfl⟩
    · exact ⟨rfl, rfl, (Bool.or_false _).symm, rfl⟩
  · exact ⟨rfl, rfl, (Bool.or_true _).symm, rfl⟩

theorem foldl_log (env : ExecEnv) (messages : List LogMessage) :
    (messages.foldl log env).totals = env.totals + ⟨0, 0, messages.countP LogMessage.isError,
        messages.countP fun m ↦ !m.isError && m.isWarning⟩ ∧
      (messages.foldl log env).output =
        messages.foldl (fun o m ↦ Output.printf m.text o) env.output ∧
      (messages.foldl log env).currentNodeFailed =
        (env.currentNodeFailed || messages.any LogMessage.isError) ∧
      (messages.foldl log env).stopOnError = env.stopOnError := by
  induction messages generalizing env with
  | nil => exact ⟨rfl, rfl, (Bool.or_false _).symm, rfl⟩
  | cons m messages ih =>
    obtain ⟨htotals, houtput, hfailed, hstop⟩ := ih (env.log m)
    obtain ⟨htotals', houtput', hfailed', hstop'⟩ := env.log_spec m
    rw [List.foldl_cons, htotals, houtput, hfailed, hstop, htotals', houtput', hfailed', hstop',
      List.countP_cons, List.countP_cons, List.any_cons, NodeTotals.add_assoc, Bool.or_assoc]
    refine ⟨congrArg (env.totals + ·) (NodeTotals.ext rfl rfl ?_ ?_), rfl, rfl, rfl⟩
    · exact Nat.add_comm ..
    · exact Nat.add_comm ..

/-- What executing a node adds. -/
theorem execNodeForCertname_spec {env : ExecEnv} (h : env.stopOnError = false) (n : NodeLog) :
    (env.execNodeForCertname n.certname n.messages).totals = env.totals + n.totals ∧
      (env.execNodeForCertname n.certname n.messages).output.text = env.output.text ++ n.text ∧
      (env.execNodeForCertname n.certname n.messages).output.isBuffer = env.output.isBuffer ∧
      (env.execNodeForCertname n.certname n.messages).stopOnError = n.fails := by
  obtain ⟨htotals, houtput, hfailed, hstop⟩ := foldl_log (env.beginNode n.certname) n.messages
  obtain ⟨htext, hbuffer⟩ := Output.foldl_printf (env.beginNode n.certname).output n.messages
  have hfails : (n.messages.foldl log (env.beginNode n.certname)).currentNodeFailed = n.fails :=
    hfailed.trans (Bool.false_or _)
  have hbegin : (env.beginNode n.certname).totals = env.totals + ⟨1, 0, 0, 0⟩ := rfl
  have hheader : (env.beginNode n.certname).output =
      env.output.printf ("--- Node: " ++ n.certname ++ " ---\n").toList := rfl
  rw [execNodeForCertname, h, if_neg Bool.false_ne_true, endNode, hfails, NodeLog.totals,
    NodeLog.text]
  rw [hheader, Output.text_printf, ← hheader] at htext
  rw [hheader, Output.isBuffer_printf, ← hheader] at hbuffer
  cases n.fails
  · rw [if_neg Bool.false_ne_true, if_neg Bool.false_ne_true, if_neg Bool.false_ne_true, htotals,
      houtput, htext, hbuffer, hbegin, NodeTotals.add_assoc, List.append_nil, List.append_assoc]
    refine ⟨congrArg (env.totals + ·) (NodeTotals.ext rfl rfl ?_ ?_), rfl, rfl, hstop.trans h⟩
    · exact Nat.zero_add _
    · exact Nat.zero_add _
  · rw [if_pos rfl, if_pos rfl, if_pos rfl, Output.text_printf, Output.isBuffer_printf, htotals,
      houtput, htext, hbuffer, hbegin, NodeTotals.add_assoc]
    refine ⟨NodeTotals.ext rfl rfl ?_ ?_, by simp only [List.append_assoc], rfl, rfl⟩
    · exact congrArg (env.totals.errorsCount + ·) (Nat.zero_add _)
    · exact congrArg (env.totals.warningsCount + ·) (Nat.zero_add _)

end ExecEnv

/-! ### Nodes of the facts database -/

/-- The counters and the standard error of the main thread. -/
@[ext] structure ParallelEnv where
  totals : NodeTotals
  stderr : List Char

/-- `parallel_node_work_t`: a thread that is created, that executes what is left of a node, or that
is over, with its counters and its buffer. -/
inductive ParallelNodeWork where
  | created (n : NodeLog)
  | executing (n : NodeLog) (rest : List LogMessage) (env : ExecEnv)
  | ended (totals : NodeTotals) (output : Output)

/-- The warning about a certname without a definition. -/
def noMatchText (certname : String) : List Char :=
  ("[WARN] No matching node block found for '" ++ certname ++ "'\n").toList

/-- The error about a certname without a thread. -/
def notCreatedText (certname : String) : List Char :=
  ("[ERROR] Failed to create thread for node " ++ certname ++ "\n").toList

section Modes

variable {β : Type} (regexec : String → String → Bool) (nodes : List (NodeDef β))
  (logs : NodeDef β → String → List LogMessage)

/-- The definition of a certname, with what executing it logs. -/
def matchingLog (certname : String) : Option NodeLog :=
  (findMatchingNode regexec nodes certname).map fun n ↦ ⟨certname, logs n certname⟩

/-- `puppet_exec_nodes_parallel` with the threads of `parallel_node_worker`; the answers are those
of `pthread_create`. -/
def parallelNodes : TaskPool String ParallelNodeWork ParallelEnv where
  start env certname created :=
    match matchingLog regexec nodes logs certname with
    | none => ({ env with stderr := env.stderr ++ noMatchText certname }, none)
    | some n =>
      if created then (env, some (.created n))
      else ({ env with stderr := env.stderr ++ notCreatedText certname }, none)
  work
    | .created n => some (.executing n n.messages (ExecEnv.cloneForNode.beginNode n.certname))
    | .executing n (m :: rest) env => some (.executing n rest (env.log m))
    | .executing n [] env =>
      some (.ended (env.endNode n.certname).totals (env.endNode n.certname).output)
    | .ended _ _ => none
  collect env
    | .ended totals output => ⟨env.totals + totals, env.stderr ++ output.captured⟩
    | _ => env

/-- The loop over the facts database without `-P`. -/
def execNodesSequential (env : ExecEnv) (names : List String) : ExecEnv :=
  names.foldl (fun env certname ↦
    match matchingLog regexec nodes logs certname with
    | none => env.print (noMatchText certname)
    | some n => env.execNodeForCertname n.certname n.messages) env

/-- The nodes whose threads were created, in the order of the facts database. -/
def startedNodes (taken : List (String × Bool)) : List NodeLog :=
  taken.filterMap fun p ↦ if p.2 then matchingLog regexec nodes logs p.1 else none

/-- What the main thread prints about a certname for which it starts no thread. -/
def notStartedText (p : String × Bool) : List Char :=
  if (matchingLog regexec nodes logs p.1).isNone then noMatchText p.1
  else if p.2 then [] else notCreatedText p.1

/-- What a thread comes to. -/
def ParallelNodeWork.final : ParallelNodeWork → ParallelNodeWork
  | .created n =>
    .ended (ExecEnv.cloneForNode.execNodeForCertname n.certname n.messages).totals
      (ExecEnv.cloneForNode.execNodeForCertname n.certname n.messages).output
  | .executing n rest env =>
    .ended ((rest.foldl ExecEnv.log env).endNode n.certname).totals
      ((rest.foldl ExecEnv.log env).endNode n.certname).output
  | .ended totals output => .ended totals output

/-- The steps that a thread has left. -/
def ParallelNodeWork.stepsLeft : ParallelNodeWork → ℕ
  | .created n => n.messages.length + 2
  | .executing _ rest _ => rest.length + 1
  | .ended _ _ => 0

variable {regexec nodes logs}

theorem parallelNodes_finishes : (parallelNodes regexec nodes logs).Finishes .final where
  work w w' h := by
    cases w with
    | created n => exact Option.some.inj h ▸ rfl
    | executing n rest env => cases rest <;> exact Option.some.inj h ▸ rfl
    | ended totals output => cases h
  ended w h := by
    cases w with
    | created n => cases h
    | executing n rest env => cases rest <;> cases h
    | ended totals output => rfl

theorem parallelNodes_stepsLeft (w w' : ParallelNodeWork)
    (h : (parallelNodes regexec nodes logs).work w = some w') : w'.stepsLeft < w.stepsLeft := by
  cases w with
  | created n => exact Option.some.inj h ▸ Nat.lt_succ_self _
  | executing n rest env => cases rest <;> exact Option.some.inj h ▸ Nat.lt_succ_self _
  | ended totals output => cases h

theorem parallelNodes_start (env : ParallelEnv) (certname : String) (created : Bool) :
    (parallelNodes regexec nodes logs).start env certname created =
      (⟨env.totals, env.stderr ++ notStartedText regexec nodes logs (certname, created)⟩,
        (if created then matchingLog regexec nodes logs certname else none).map .created) := by
  cases hmatch : matchingLog regexec nodes logs certname with
  | none => cases created <;> simp [parallelNodes, notStartedText, hmatch]
  | some n => cases created <;> simp [parallelNodes, notStartedText, hmatch]

/-- What the main thread does before it waits. -/
theorem parallelNodes_launch (env : ParallelEnv) (taken : List (String × Bool)) :
    (parallelNodes regexec nodes logs).launch env taken =
      (⟨env.totals, env.stderr ++ taken.flatMap (notStartedText regexec nodes logs)⟩,
        (startedNodes regexec nodes logs taken).map .created) := by
  induction taken generalizing env with
  | nil => exact Prod.ext (ParallelEnv.ext rfl (List.append_nil _).symm) rfl
  | cons p taken ih =>
    have hstarted : startedNodes regexec nodes logs (p :: taken) =
        (if p.2 then matchingLog regexec nodes logs p.1 else none).toList ++
          startedNodes regexec nodes logs taken := by
      rw [startedNodes, List.filterMap_cons, ← startedNodes]
      cases (if p.2 then matchingLog regexec nodes logs p.1 else none) <;> rfl
    rw [TaskPool.launch, parallelNodes_start, ih, List.flatMap_cons, hstarted, List.map_append]
    refine Prod.ext (ParallelEnv.ext rfl (List.append_assoc ..)) (congrArg (· ++ _) ?_)
    cases (if p.2 then matchingLog regexec nodes logs p.1 else none) <;> rfl

/-- What the main thread does after it has waited. -/
theorem parallelNodes_collect (env : ParallelEnv) (ns : List NodeLog) :
    ((ns.map .created).map .final).foldl (parallelNodes regexec nodes logs).collect env =
      ⟨(ns.map NodeLog.totals).foldl (· + ·) env.totals,
        env.stderr ++ ns.flatMap NodeLog.text⟩ := by
  induction ns generalizing env with
  | nil => exact ParallelEnv.ext rfl (List.append_nil _).symm
  | cons n ns ih =>
    have hclone : ExecEnv.cloneForNode.stopOnError = false := rfl
    obtain ⟨htotals, htext, hbuffer, -⟩ := ExecEnv.execNodeForCertname_spec hclone n
    have hzero : ExecEnv.cloneForNode.totals + n.totals = n.totals :=
      NodeTotals.ext (Nat.zero_add _) (Nat.zero_add _) (Nat.zero_add _) (Nat.zero_add _)
    have hone : (parallelNodes regexec nodes logs).collect env (.final (.created n)) =
        ⟨env.totals + n.totals, env.stderr ++ n.text⟩ :=
      ParallelEnv.ext (congrArg (env.totals + ·) (htotals.trans hzero))
        (congrArg (env.stderr ++ ·) ((Output.captured_of_isBuffer hbuffer).trans htext))
    rw [List.map_cons, List.map_cons, List.foldl_cons, hone, ih, List.map_cons, List.foldl_cons,
      List.flatMap_cons, List.append_assoc]

/-- Two nodes, of which the first fails. -/
def failingLogs (n : NodeDef Unit) (_ : String) : List LogMessage :=
  if n.name = "default" then [] else [⟨.error, ['!']⟩]

/-- Their threads, the second ahead of the first. -/
def twoNodes : List PoolAction :=
  [.start true, .start true, .work 1, .work 0, .work 0, .work 1, .work 0, .join, .join, .collect,
    .collect]

/-- The nodes up to the first that fails. -/
def upToFailure : List NodeLog → List NodeLog
  | [] => []
  | n :: ns => if n.fails then [n] else n :: upToFailure ns

theorem upToFailure_prefix (ns : List NodeLog) : upToFailure ns <+: ns := by
  induction ns with
  | nil => exact List.prefix_refl _
  | cons n ns ih =>
    rw [upToFailure]
    split_ifs
    · exact ⟨ns, rfl⟩
    · exact List.cons_prefix_cons.2 ⟨rfl, ih⟩

theorem upToFailure_eq_iff (ns : List NodeLog) :
    upToFailure ns = ns ↔ ∀ n ∈ ns.dropLast, n.fails = false := by
  induction ns with
  | nil => exact iff_of_true rfl fun _ h ↦ absurd h List.not_mem_nil
  | cons n ns ih =>
    cases ns with
    | nil =>
      refine iff_of_true ?_ fun _ h ↦ absurd h List.not_mem_nil
      rw [upToFailure, upToFailure]
      split_ifs <;> rfl
    | cons n' ns =>
      rw [List.dropLast_cons_cons, List.forall_mem_cons, ← ih, upToFailure]
      cases n.fails
      · rw [if_neg Bool.false_ne_true, List.cons.injEq]
        exact and_congr_left fun _ ↦ iff_of_true rfl rfl
      · rw [if_pos rfl]
        exact iff_of_false (by simp) fun h ↦ Bool.noConfusion h.1

/-- After a failure nothing more is counted. -/
theorem execNodesSequential_of_stopOnError {env : ExecEnv} (h : env.stopOnError = true)
    (names : List String) :
    (execNodesSequential regexec nodes logs env names).totals = env.totals := by
  induction names generalizing env with
  | nil => rfl
  | cons certname names ih =>
    rw [execNodesSequential, List.foldl_cons, ← execNodesSequential]
    cases matchingLog regexec nodes logs certname with
    | none => exact @ih (env.print _) h
    | some n =>
      dsimp only
      rw [ExecEnv.execNodeForCertname, h, if_pos rfl]
      exact ih h

/-- Without `-P` the nodes up to the first that fails are counted. -/
theorem execNodesSequential_totals {env : ExecEnv} (h : env.stopOnError = false)
    (names : List String) :
    (execNodesSequential regexec nodes logs env names).totals =
      ((upToFailure (names.filterMap (matchingLog regexec nodes logs))).map NodeLog.totals).foldl
        (· + ·) env.totals := by
  induction names generalizing env with
  | nil => rfl
  | cons certname names ih =>
    rw [execNodesSequential, List.foldl_cons, ← execNodesSequential, List.filterMap_cons]
    cases matchingLog regexec nodes logs certname with
    | none => exact @ih (env.print _) h
    | some n =>
      obtain ⟨htotals, -, -, hstop⟩ := ExecEnv.execNodeForCertname_spec h n
      dsimp only
      rw [upToFailure]
      cases hfails : n.fails
      · rw [if_neg Bool.false_ne_true, List.map_cons, List.foldl_cons, ← htotals]
        exact ih (hstop.trans hfails)
      · rw [if_pos rfl]
        exact (execNodesSequential_of_stopOnError (hstop.trans hfails) names).trans htotals

theorem foldl_totals_nodesProcessed (totals : NodeTotals) (ns : List NodeLog) :
    ((ns.map NodeLog.totals).foldl (· + ·) totals).nodesProcessed =
      totals.nodesProcessed + ns.length := by
  induction ns generalizing totals with
  | nil => rfl
  | cons n ns ih =>
    rw [List.map_cons, List.foldl_cons, ih, List.length_cons, ← Nat.add_assoc, Nat.add_right_comm]
    rfl

end Modes

end PuppetC
