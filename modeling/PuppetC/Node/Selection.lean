import PuppetC.Text

/-!
# Selection of node definitions

A manifest may hold several node definitions: literal certnames, regular expressions between
slashes, and `default`. In all-nodes mode the definitions are registered and
`puppet_find_matching_node` picks one for each certname of the facts database. In single-node
mode `puppet_exec_node` decides at each node statement whether to run it, and
`puppet_exec_program` falls back to the default node at the end.

Regular expressions enter as `regexec pattern text`, which is false when the pattern does not
compile. The bodies are of any type `β`, and a run is described by the definitions whose bodies
it executes.

## Main definitions

* `NodeDef`: a node statement.
* `findMatchingNode`: `puppet_find_matching_node`.
* `NodeEnv`, `execNode`, `execNodeStmts`: the node statements of a program, first to last.
* `execProgramNodes`: `puppet_exec_program` outside the iteration over a facts database.
* `selectNode`: the choice by precedence, literal names before regular expressions before
  `default`.

## Main results

* `executed_singleMode`: single-node mode executes every definition that matches.
* `singleMode_selects_iff`: it executes the definition found by all-nodes mode, and this is the
  choice by precedence, exactly when at most one definition matches the certname.
-/

namespace PuppetC

/-- A statement of type `PUPPET_STMT_NODE`. -/
structure NodeDef (β : Type) where
  name : String
  body : β
  deriving DecidableEq

/-- A node name of three characters or more that starts and ends with `/` is a pattern. -/
def isRegexName (name : String) : Bool :=
  2 < name.toList.length && name.toList.head? = some '/' && name.toList.getLast? = some '/'

/-- The pattern of a node name, without the slashes. -/
def regexPattern (name : String) : String := String.ofList (name.toList.drop 1).dropLast

section Selection

variable {β : Type} (regexec : String → String → Bool)

/-- Does a node name other than `default` match a certname? -/
def nodeNameMatches (name certname : String) : Bool :=
  if isRegexName name then regexec (regexPattern name) certname else name = certname

/-- The loop of `puppet_find_matching_node`: the first definition that matches, or the last
default. -/
def findMatchingNodeFrom (certname : String) (defaultNode : Option (NodeDef β)) :
    List (NodeDef β) → Option (NodeDef β)
  | [] => defaultNode
  | n :: ns =>
    if n.name = "default" then findMatchingNodeFrom certname (some n) ns
    else if nodeNameMatches regexec n.name certname then some n
    else findMatchingNodeFrom certname defaultNode ns

/-- `puppet_find_matching_node`. -/
def findMatchingNode (nodeDefinitions : List (NodeDef β)) (certname : String) :
    Option (NodeDef β) :=
  findMatchingNodeFrom regexec certname none nodeDefinitions

/-! ### Node statements -/

/-- The fields of the environment that decide which node bodies run. `executed` records the
definitions whose bodies ran, in order. -/
structure NodeEnv (β : Type) where
  executeAllNodes : Bool
  deferNodeExecution : Bool
  nodeName : Option String
  nodeMatched : Bool
  defaultNode : Option (NodeDef β)
  nodeDefinitions : List (NodeDef β)
  nodesSkippedRegex : ℕ
  nodesProcessed : ℕ
  nodesFailed : ℕ
  stopOnError : Bool
  executed : List (NodeDef β)

/-- The decision `should_execute` of `puppet_exec_node`. -/
def shouldExecute (executeAllNodes : Bool) (nodeName : Option String) (name : String) : Bool :=
  if executeAllNodes then !isRegexName name
  else match nodeName with
    | none => name = "default"
    | some target => name ≠ "default" && nodeNameMatches regexec name target

variable (fails : NodeDef β → Bool)

/-- `puppet_exec_node`, with `fails` for the bodies that mark the node as failed. -/
def execNode (env : NodeEnv β) (n : NodeDef β) : NodeEnv β :=
  let env := if n.name = "default" then { env with defaultNode := some n } else env
  if env.deferNodeExecution then { env with nodeDefinitions := env.nodeDefinitions ++ [n] }
  else
    let env := if env.executeAllNodes && isRegexName n.name then
        { env with nodesSkippedRegex := env.nodesSkippedRegex + 1 } else env
    if env.stopOnError then env
    else if shouldExecute regexec env.executeAllNodes env.nodeName n.name then
      { env with
        nodeMatched := true
        nodesProcessed := env.nodesProcessed + 1
        executed := env.executed ++ [n]
        nodesFailed := if fails n then env.nodesFailed + 1 else env.nodesFailed
        stopOnError := fails n && env.executeAllNodes }
    else env

/-- The node statements of a program, first to last. -/
def execNodeStmts (env : NodeEnv β) : List (NodeDef β) → NodeEnv β
  | [] => env
  | n :: ns => execNodeStmts (execNode regexec fails env n) ns

/-- `puppet_exec_program` on the node statements of a program, when it does not iterate over a
facts database: the default node runs when a node was asked for and none matched. -/
def execProgramNodes (env : NodeEnv β) (nodes : List (NodeDef β)) : NodeEnv β :=
  let start := { env with nodeMatched := false, defaultNode := none, nodeDefinitions := [] }
  let last := execNodeStmts regexec fails start nodes
  match last.nodeName, last.nodeMatched, last.defaultNode with
  | some name, false, some n =>
    { execNode regexec fails { last with nodeName := none } n with nodeName := some name }
  | _, _, _ => last

/-- The environment of `--node certname`. -/
def singleMode (certname : String) : NodeEnv β where
  executeAllNodes := false
  deferNodeExecution := false
  nodeName := some certname
  nodeMatched := false
  defaultNode := none
  nodeDefinitions := []
  nodesSkippedRegex := 0
  nodesProcessed := 0
  nodesFailed := 0
  stopOnError := false
  executed := []

/-! ### The definitions that match -/

/-- Definitions other than `default` that match a certname. -/
def matchingNodes (certname : String) (nodes : List (NodeDef β)) : List (NodeDef β) :=
  nodes.filter fun n ↦ n.name ≠ "default" && nodeNameMatches regexec n.name certname

/-- The last definition named `default`. -/
def lastDefault (nodes : List (NodeDef β)) : Option (NodeDef β) :=
  (nodes.filter fun n ↦ n.name = "default").getLast?

/-- The choice by precedence: a literal name, else a regular expression, else `default`. -/
def selectNode (certname : String) (nodes : List (NodeDef β)) : Option (NodeDef β) :=
  (matchingNodes regexec certname nodes).find? (fun n ↦ !isRegexName n.name) <|>
    (matchingNodes regexec certname nodes).head? <|> lastDefault nodes

variable {regexec}

theorem matchingNodes_cons_default {n : NodeDef β} (h : n.name = "default") (certname : String)
    (nodes : List (NodeDef β)) :
    matchingNodes regexec certname (n :: nodes) = matchingNodes regexec certname nodes := by
  simp [matchingNodes, h]

theorem matchingNodes_cons_of_matches {n : NodeDef β} {certname : String}
    (hd : n.name ≠ "default") (h : nodeNameMatches regexec n.name certname = true)
    (nodes : List (NodeDef β)) :
    matchingNodes regexec certname (n :: nodes) = n :: matchingNodes regexec certname nodes := by
  simp [matchingNodes, hd, h]

theorem matchingNodes_cons_of_not_matches {n : NodeDef β} {certname : String}
    (h : nodeNameMatches regexec n.name certname = false) (nodes : List (NodeDef β)) :
    matchingNodes regexec certname (n :: nodes) = matchingNodes regexec certname nodes := by
  simp [matchingNodes, h]

theorem lastDefault_cons_default {n : NodeDef β} (h : n.name = "default")
    (nodes : List (NodeDef β)) :
    lastDefault (n :: nodes) = some ((lastDefault nodes).getD n) := by
  simp [lastDefault, h, List.getLast?_cons]

theorem lastDefault_cons_of_ne {n : NodeDef β} (h : n.name ≠ "default")
    (nodes : List (NodeDef β)) : lastDefault (n :: nodes) = lastDefault nodes := by
  simp [lastDefault, h]

/-- The search finds the first definition that matches, or else the last default. -/
theorem findMatchingNodeFrom_eq (certname : String) (defaultNode : Option (NodeDef β))
    (nodes : List (NodeDef β)) :
    findMatchingNodeFrom regexec certname defaultNode nodes =
      ((matchingNodes regexec certname nodes).head? <|> lastDefault nodes <|> defaultNode) := by
  induction nodes generalizing defaultNode with
  | nil => rfl
  | cons n nodes ih =>
    rw [findMatchingNodeFrom]
    split_ifs with hd hm
    · rw [ih, matchingNodes_cons_default hd, lastDefault_cons_default hd]
      cases lastDefault nodes <;> rfl
    · simp [matchingNodes_cons_of_matches hd hm]
    · rw [ih, matchingNodes_cons_of_not_matches (by simpa using hm), lastDefault_cons_of_ne hd]

theorem findMatchingNode_eq (certname : String) (nodes : List (NodeDef β)) :
    findMatchingNode regexec nodes certname =
      ((matchingNodes regexec certname nodes).head? <|> lastDefault nodes) := by
  rw [findMatchingNode, findMatchingNodeFrom_eq]
  cases (matchingNodes regexec certname nodes).head? <;> cases lastDefault nodes <;> rfl

/-! ### A run of single-node mode -/

variable (regexec) in
/-- What holds of the environment of single-node mode after the node statements `seen`: every
definition that matches has run, and the last default is kept. -/
structure SingleModeAfter (certname : String) (seen : List (NodeDef β)) (env : NodeEnv β) :
    Prop where
  executeAllNodes : env.executeAllNodes = false
  deferNodeExecution : env.deferNodeExecution = false
  stopOnError : env.stopOnError = false
  nodeName : env.nodeName = some certname
  executed : env.executed = matchingNodes regexec certname seen
  nodeMatched : env.nodeMatched = !(matchingNodes regexec certname seen).isEmpty
  defaultNode : env.defaultNode = lastDefault seen

theorem lastDefault_append_singleton (nodes : List (NodeDef β)) (n : NodeDef β) :
    lastDefault (nodes ++ [n]) = if n.name = "default" then some n else lastDefault nodes := by
  by_cases h : n.name = "default" <;> simp [lastDefault, h]

/-- One node statement of single-node mode. -/
theorem SingleModeAfter.execNode {certname : String} {seen : List (NodeDef β)} {env : NodeEnv β}
    (h : SingleModeAfter regexec certname seen env) (n : NodeDef β) :
    SingleModeAfter regexec certname (seen ++ [n]) (execNode regexec fails env n) := by
  obtain ⟨hall, hdefer, hstop, hname, hexec, hmatched, hdefault⟩ := h
  by_cases hd : n.name = "default"
  · constructor <;>
      simp [PuppetC.execNode, lastDefault_append_singleton, shouldExecute, hd, hall, hdefer,
        hstop, hname, hexec, hmatched, matchingNodes]
  · cases hm : nodeNameMatches regexec n.name certname <;>
      constructor <;>
        simp [PuppetC.execNode, lastDefault_append_singleton, shouldExecute, hd, hm, hall,
          hdefer, hstop, hname, hexec, hmatched, hdefault, matchingNodes]

/-- The node statements of a program in single-node mode. -/
theorem SingleModeAfter.execNodeStmts {certname : String} {seen : List (NodeDef β)}
    {env : NodeEnv β} (h : SingleModeAfter regexec certname seen env)
    (nodes : List (NodeDef β)) :
    SingleModeAfter regexec certname (seen ++ nodes)
      (execNodeStmts regexec fails env nodes) := by
  induction nodes generalizing seen env with
  | nil => simpa only [List.append_nil, PuppetC.execNodeStmts] using h
  | cons n nodes ih =>
    have hnext := ih (h.execNode fails n)
    simpa only [List.append_assoc, List.singleton_append, PuppetC.execNodeStmts] using hnext

/-- Single-node mode executes every definition that matches, or else the last default. -/
theorem executed_singleMode (nodes : List (NodeDef β)) (certname : String) :
    (execProgramNodes regexec fails (singleMode certname) nodes).executed =
      if matchingNodes regexec certname nodes = [] then (lastDefault nodes).toList
      else matchingNodes regexec certname nodes := by
  have hstart : SingleModeAfter regexec certname []
      { (singleMode certname : NodeEnv β) with
        nodeMatched := false, defaultNode := none, nodeDefinitions := [] } :=
    ⟨rfl, rfl, rfl, rfl, rfl, rfl, rfl⟩
  have hlast := hstart.execNodeStmts fails nodes
  obtain ⟨hall, hdefer, hstop, hname, hexec, hmatched, hdefault⟩ := hlast
  rw [List.nil_append] at hexec hmatched hdefault
  simp only [execProgramNodes, hname, hmatched, hdefault]
  cases hm : matchingNodes regexec certname nodes with
  | cons n ns => simp [hexec, hm]
  | nil =>
    cases hl : lastDefault nodes with
    | none => simp [hexec, hm]
    | some n =>
      have hd : n.name = "default" := by
        have hmem := List.mem_of_getLast? hl
        simpa using (List.mem_filter.1 hmem).2
      simp [PuppetC.execNode, hd, hall, hdefer, hstop, hexec, hm, shouldExecute]

/-- **Node selection.** Single-node mode executes exactly the definition that all-nodes mode
finds for the certname, and that definition is the choice by precedence, if and only if at most
one definition other than `default` matches the certname. -/
theorem singleMode_selects_iff (nodes : List (NodeDef β)) (certname : String) :
    ((execProgramNodes regexec fails (singleMode certname) nodes).executed =
        (findMatchingNode regexec nodes certname).toList ∧
      findMatchingNode regexec nodes certname = selectNode regexec certname nodes) ↔
    (matchingNodes regexec certname nodes).length ≤ 1 := by
  rw [executed_singleMode fails, findMatchingNode_eq, selectNode]
  rcases matchingNodes regexec certname nodes with _ | ⟨n, _ | ⟨n', ns⟩⟩
  · simp
  · cases hr : isRegexName n.name <;> simp [hr]
  · simp

end Selection

/-! ### A literal name and a pattern for one certname -/

/-- `regexec` on patterns of the form `^text`. -/
def anchoredRegexec (pattern text : String) : Bool := startsWith text (dropChars 1 pattern)

/-- Both bodies run for `web1`, where all-nodes mode runs the first. -/
theorem singleMode_executes_two :
    (execProgramNodes anchoredRegexec (fun _ ↦ false) (singleMode "web1")
        [⟨"web1", "literal"⟩, ⟨"/^web/", "pattern"⟩]).executed ≠
      (findMatchingNode anchoredRegexec [⟨"web1", "literal"⟩, ⟨"/^web/", "pattern"⟩]
        "web1").toList := by
  decide

end PuppetC
