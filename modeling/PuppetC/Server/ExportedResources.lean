import PuppetC.Facts.Load
import PuppetC.Interp.World
import PuppetC.Json.Reader
import PuppetC.Server.PuppetDb

/-!
# Exported resources in PuppetDB

The values of the parameters of an exported resource are stored as JSON, and a query answers the
rows of a type as a JSON text, into which the types, titles and certnames are spliced as they
are. A collector reads this text again.

## Main definitions

* `Value.toExportJson`: `puppet_value_to_json`.
* `PuppetDb.storeExport`: `puppetdb_store_exported`, of a declared resource.
* `PuppetDb.queryExported`: `puppetdb_query_exported`.
* `readExported`: the resources that a collector reads from the answer.
-/

namespace PuppetC

/-! ### Storing -/

namespace Value

mutual

/-- `puppet_value_to_json`, which writes no entries of a hash. -/
def toExportJson (indent : ℕ) : Value → Bytes
  | .undef => ['n', 'u', 'l', 'l']
  | .bool true => ['t', 'r', 'u', 'e']
  | .bool false => ['f', 'a', 'l', 's', 'e']
  | .string s => appendString s.toList
  | .number q =>
    if q = truncate q ∧ |q| < 2 ^ 63 then formatLong (truncate q) else formatDigits 6 q
  | .array items =>
    ['[', '\n'] ++ exportItems (indent + 1) true items ++
      '\n' :: indentation indent ++ [']']
  | .hash _ => ['\x7b', '\x7d']
  | .regexp pattern =>
    "\x7b\x22type\x22:\x22regexp\x22,\x22pattern\x22:".toList ++ appendString pattern.toList ++
      ['\x7d']
  | .deferred f args =>
    "\x7b\x22__ptype\x22:\x22Deferred\x22,\x22name\x22:".toList ++ appendString f.toList ++
      ",\x22arguments\x22:[".toList ++ exportArguments true args ++ [']', '\x7d']

/-- The loop of `puppet_value_to_json` over the items of an array. -/
def exportItems (indent : ℕ) (first : Bool) : List Value → Bytes
  | [] => []
  | v :: vs =>
    (if first then [] else [',', '\n']) ++ indentation indent ++ toExportJson indent v ++
      exportItems indent false vs

/-- The loop of `puppet_value_to_json` over the arguments of a deferred call. -/
def exportArguments (first : Bool) : List Value → Bytes
  | [] => []
  | v :: vs =>
    (if first then [] else [',']) ++ toExportJson 0 v ++ exportArguments false vs

end

end Value

/-- The parameters of an exported resource after the first, with a comma in front of each. -/
def exportParameters (first : Bool) : List (String × Value) → Bytes
  | [] => []
  | (name, v) :: attrs =>
    (if first then [] else [',']) ++ appendString name.toList ++ ':' :: v.toExportJson 0 ++
      exportParameters false attrs

/-- The JSON text of the parameters of an exported resource. -/
def parametersJson (attrs : List (String × Value)) : Bytes :=
  '\x7b' :: (exportParameters true attrs ++ ['\x7d'])

namespace PuppetDb

/-- `puppetdb_store_exported`, of a resource that a compile exports for a certname. -/
def storeExport (db : PuppetDb) (e : String × VirtualResource) : PuppetDb :=
  db.storeExported e.1.toList e.2.type.toList e.2.title.toList (parametersJson e.2.attrs)
    ['[', ']']

/-- The exports of a compile, one after the other. -/
def storeExports (db : PuppetDb) (exports : List (String × VirtualResource)) : PuppetDb :=
  exports.foldl storeExport db

/-! ### Queries -/

/-- Texts are equal under `COLLATE NOCASE`. -/
def noCase (s t : Bytes) : Bool := s.map lowerChar == t.map lowerChar

/-- A row as the query prints it, with the certname of its node. -/
def exportedJson (r : ExportedRow) (certname : Bytes) : Bytes :=
  "\x7b\x22type\x22:\x22".toList ++ r.type ++ "\x22,\x22title\x22:\x22".toList ++ r.title ++
    "\x22,\x22parameters\x22:".toList ++ r.parameters ++ ",\x22tags\x22:".toList ++ r.tags ++
    ",\x22certname\x22:\x22".toList ++ certname ++ "\x22\x7d".toList

/-- The rows of a type that active nodes exported, with the certnames of the nodes. -/
def exportedOfType (db : PuppetDb) (type : Bytes) : List (ExportedRow × Bytes) :=
  db.exported.rows.filterMap fun r ↦
    match db.nodes[r.nodeId]? with
    | some n => if noCase r.type type && !n.deactivated then some (r, n.certname) else none
    | none => none

/-- The loop of `puppetdb_query_exported` over the rows. -/
def exportedRowsJson (first : Bool) : List (ExportedRow × Bytes) → Bytes
  | [] => []
  | (r, certname) :: rs =>
    (if first then [] else [',']) ++ exportedJson r certname ++ exportedRowsJson false rs

/-- `puppetdb_query_exported`. -/
def queryExported (db : PuppetDb) (type : Bytes) : Bytes :=
  '[' :: (exportedRowsJson true (db.exportedOfType type) ++ [']'])

end PuppetDb

/-! ### Reading the answer -/

/-- `json_object_get_string`. -/
def JsonOf.getString? (k : Bytes) (v : Json) : Option Bytes :=
  match v.get? k with
  | some (.string s) => some s
  | _ => none

/-- The resource that a collector reads from an element of the answer. -/
def readExportedElement (v : Json) : Option ExportedResource :=
  match v with
  | .object _ => do
    let type ← v.getString? "type".toList
    let title ← v.getString? "title".toList
    let parameters := match v.get? "parameters".toList with
      | some (.object members) => Json.membersToEntries members
      | _ => []
    return ⟨String.ofList type, String.ofList title,
      (v.getString? "certname".toList).map String.ofList, parameters⟩
  | _ => none

/-- The resources that a collector reads from the answer. -/
def readExported (answer : Bytes) : List ExportedResource :=
  match jsonParse answer with
  | .ok (.array elements) => elements.filterMap readExportedElement
  | _ => []

end PuppetC
