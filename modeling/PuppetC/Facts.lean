import PuppetC.Value

/-!
# Facts

The facts database holds the facts of each node, flat and under dotted names. A compile reads
the facts of its current node (`puppet_facts_db_resolve_node`), either one by one or as the
nested hash `$facts`.

Puppet 8 has removed the legacy facts; `puppet_lint.c` lists them, with those that survive.

## Main definitions

* `FactsDb`, `FactsDb.resolveNode`: the database and the choice of a node's facts.
* `factsGet`, `factsGetAllAsHash`, `factsLookupDotted`: the reads of a node's facts.
* `isLegacyFact`, `isRemovedLegacyFact`: `puppet_lint_lookup_legacy_fact_ex`.
-/

namespace PuppetC

/-- `puppet_node_facts_t`, less the environment of the node. -/
structure NodeFacts where
  certname : String
  facts : Hash 16 Value

/-- `puppet_facts_db_t`, less its current node, which changes during a compile. -/
structure FactsDb where
  nodes : List NodeFacts

namespace FactsDb

/-- The node that `node_index` holds for a certname: the last one added. -/
def find (db : FactsDb) (certname : String) : Option NodeFacts :=
  (db.nodes.filter fun n ↦ n.certname = certname).getLast?

/-- `puppet_facts_db_resolve_node`: the node of the certname being compiled, else the current
node of the database, else the only node there is. -/
def resolveNode (db : FactsDb) (currentNodeCertname currentNode : Option String) :
    Option NodeFacts :=
  currentNodeCertname.bind db.find <|> currentNode.bind db.find <|>
    match db.nodes with
    | [n] => some n
    | _ => none

end FactsDb

/-- `puppet_facts_get`, of the node the database resolves. -/
def factsGet (node : Option NodeFacts) (name : String) : Option Value :=
  if name = "puppetversion" then some (.string "puppetc")
  else node.bind fun n ↦ (n.facts.get name).map Value.copy

/-- The parts of a text between dots that are not empty, as `strtok_r` gives them. -/
def dotTokens (s : String) : List String :=
  ((s.toList.splitOn '.').filter (· ≠ [])).map String.ofList

/-- Enter a fact in the nested hash, below hashes for the leading parts of its name. -/
def insertFact (entries : List (String × Value)) : List String → Value → List (String × Value)
  | [], _ => entries
  | [t], v => hashSet entries t v.copy
  | t :: ts, v =>
    match hashGet entries t with
    | some (.hash nested) => hashSet entries t (.hash (insertFact nested ts v))
    | _ => hashSet entries t (.hash (insertFact [] ts v))

/-- `puppet_facts_get_all_as_hash`. -/
def factsGetAllAsHash (node : Option NodeFacts) : Option Value :=
  node.map fun n ↦
    .hash (hashSet (n.facts.entries.foldl (fun es f ↦ insertFact es (dotTokens f.1) f.2) [])
      "puppetversion" (.string "puppetc"))

/-- A whole text that `strtol` reads as an index. -/
def parseIndex (s : String) : Option ℕ :=
  let cs := s.toList.dropWhile fun c ↦ c = ' ' || ('\t' ≤ c && c ≤ '\r')
  let digit (c : Char) : Bool := '0' ≤ c && c ≤ '9'
  let value (ds : List Char) : ℕ := ds.foldl (fun n c ↦ 10 * n + (c.toNat - '0'.toNat)) 0
  match cs with
  | '+' :: ds => if ds ≠ [] ∧ ds.all digit then some (value ds) else none
  | '-' :: ds => if ds ≠ [] ∧ ds.all (· = '0') then some 0 else none
  | ds => if ds ≠ [] ∧ ds.all digit then some (value ds) else none

/-- The walk of `puppet_facts_lookup_dotted` into the nested hash. -/
def walkFacts : Value → List String → Option Value
  | v, [] => some v
  | .hash entries, t :: ts =>
    match hashGet entries t with
    | some v => walkFacts v.copy ts
    | none => none
  | .array items, t :: ts =>
    match (parseIndex t).bind (items[·]?) with
    | some v => walkFacts v.copy ts
    | none => none
  | _, _ :: _ => none

/-- `puppet_facts_lookup_dotted`. -/
def factsLookupDotted (node : Option NodeFacts) (path : String) : Option Value :=
  if path = "" then none
  else factsGet node path <|> (factsGetAllAsHash node).bind (walkFacts · (dotTokens path))

/-! ### Legacy facts -/

/-- The names in `legacy_facts`, with those that still exist. -/
def legacyFacts : List (String × Bool) :=
  [("ipaddress", false), ("ipaddress_eth0", false), ("ipaddress_lo", false), ("fqdn", false),
   ("hostname", false), ("domain", false), ("macaddress", false), ("osfamily", false),
   ("operatingsystem", false), ("operatingsystemrelease", false),
   ("operatingsystemmajrelease", false), ("lsbdistcodename", false), ("lsbdistid", false),
   ("lsbdistdescription", false), ("lsbdistrelease", false), ("lsbmajdistrelease", false),
   ("processorcount", false), ("physicalprocessorcount", false), ("processor0", false),
   ("memorysize", false), ("memoryfree", false), ("memorysize_mb", false), ("swapsize", false),
   ("swapfree", false), ("blockdevice_sda_size", false), ("architecture", false),
   ("hardwaremodel", false), ("kernel", false), ("kernelrelease", false),
   ("kernelversion", false), ("kernelmajversion", false), ("uptime_seconds", false),
   ("uptime_hours", false), ("uptime_days", false), ("uptime", false), ("id", false),
   ("gid", false), ("puppetversion", true), ("clientcert", true), ("clientversion", true),
   ("environment", true), ("selinux", false), ("selinux_enforced", false), ("timezone", false),
   ("virtual", false), ("is_virtual", false)]

/-- `puppet_lint_lookup_legacy_fact_ex`: is the name that of a legacy fact, and does the fact
still exist? -/
def isLegacyFact (name : String) : Option Bool := legacyFacts.lookup name

/-- A legacy fact that Puppet 8 no longer binds as a variable. -/
def isRemovedLegacyFact (name : String) : Bool := isLegacyFact name = some false

end PuppetC
