import PuppetC.Interp.Catalog
import PuppetC.Json.Writer

/-!
# The document of a catalog

The text that `puppet_catalog_to_json` writes for a catalog, with what else of a catalog it
writes: its version, its tags and where the resources were declared.

## Main definitions

* `CatalogDocument`: a catalog with everything that is written of it.
* `Value.jsonWriteValue`: `json_write_value`.
* `CatalogDocument.toJson`: `puppet_catalog_to_json`.
-/

namespace PuppetC

/-- A resource with the file and line of its declaration. -/
structure DocumentResource extends CatalogResource where
  location : Option (String × ℤ)

/-- A catalog as it is written. -/
structure CatalogDocument where
  certname : String
  version : String
  environment : String
  tags : List String
  classes : List String
  resources : List DocumentResource
  edges : List CatalogEdge

/-- `puppet_relationship_to_string`. -/
def Relationship.toText : Relationship → String
  | .before => "before"
  | .require => "required-by"
  | .notify => "notifies"
  | .subscribe => "subscription-of"

/-- `json_escape_string`, which escapes the same bytes as the JSON library. -/
def jsonEscapeString (s : String) : Bytes := appendString s.toList

/-- `fputs(b ? "true" : "false", out)`. -/
def jsonBool (b : Bool) : Bytes :=
  if b then ['t', 'r', 'u', 'e'] else ['f', 'a', 'l', 's', 'e']

/-- The loops that write a list: a separator in front of every item but the first. -/
def separated {α : Type} (sep : Bytes) (f : α → Bytes) (first : Bool) : List α → Bytes
  | [] => []
  | x :: xs => (if first then [] else sep) ++ f x ++ separated sep f false xs

/-- A list in brackets, on one line. -/
def jsonList {α : Type} (f : α → Bytes) (xs : List α) : Bytes :=
  '[' :: (separated [',', ' '] f true xs ++ [']'])

/-- A member of an object. -/
def jsonMember (m : String × Bytes) : Bytes := jsonEscapeString m.1 ++ [':', ' '] ++ m.2

/-- An object on one line. -/
def jsonRecord (ms : List (String × Bytes)) : Bytes :=
  '\x7b' :: (separated [',', ' '] jsonMember true ms ++ ['\x7d'])

/-- An object with each member on a line of its own. -/
def jsonBlock (level : ℕ) (ms : List (String × Bytes)) : Bytes :=
  ['\x7b', '\n'] ++
    separated [',', '\n'] (fun m ↦ indentation (level + 1) ++ jsonMember m) true ms ++
    '\n' :: indentation level ++ ['\x7d']

/-- A list with each item on lines of its own. -/
def jsonBlocks {α : Type} (level : ℕ) (f : α → Bytes) (xs : List α) : Bytes :=
  ['[', '\n'] ++ separated [',', '\n'] (fun x ↦ indentation (level + 1) ++ f x) true xs ++
    '\n' :: indentation level ++ [']']

/-! ### Values -/

namespace Value

mutual

/-- `json_write_value`. -/
def jsonWriteValue : Value → Bytes
  | .string s => jsonEscapeString s
  | .number q => formatDigits 6 q
  | .bool b => jsonBool b
  | .undef => ['n', 'u', 'l', 'l']
  | .array items => '[' :: (writeItems true items ++ [']'])
  | .hash entries => '\x7b' :: (writeEntries true entries ++ ['\x7d'])
  | .deferred f args =>
    ['\x7b'] ++ jsonMember ("__ptype", jsonEscapeString "Deferred") ++ [',', ' '] ++
      jsonMember ("name", jsonEscapeString f) ++ [',', ' '] ++
      jsonMember ("arguments", '[' :: (writeItems true args ++ [']'])) ++ ['\x7d']
  | .regexp _ => ['n', 'u', 'l', 'l']

/-- The loop of `json_write_value` over the items of an array. -/
def writeItems (first : Bool) : List Value → Bytes
  | [] => []
  | v :: vs => (if first then [] else [',', ' ']) ++ jsonWriteValue v ++ writeItems false vs

/-- The loop of `json_write_value` over the entries of a hash. -/
def writeEntries (first : Bool) : List (String × Value) → Bytes
  | [] => []
  | (k, v) :: es =>
    (if first then [] else [',', ' ']) ++ jsonMember (k, jsonWriteValue v) ++ writeEntries false es

end

end Value

/-! ### The catalog -/

/-- A resource in the document. -/
def DocumentResource.toJson (r : DocumentResource) : Bytes :=
  jsonBlock 2 <|
    [("type", jsonEscapeString r.type),
      ("title", jsonEscapeString r.title),
      ("exported", jsonBool r.exported),
      ("tags", jsonList jsonEscapeString r.tags)] ++
    (match r.location with
      | some (file, line) => [("file", jsonEscapeString file), ("line", formatLong line)]
      | none => []) ++
    [("parameters", jsonRecord (r.parameters.map fun p ↦ (p.1, p.2.jsonWriteValue)))]

/-- An edge in the document. -/
def CatalogEdge.toJson (e : CatalogEdge) : Bytes :=
  jsonBlock 2
    [("source", jsonRecord [("type", jsonEscapeString e.sourceType),
      ("title", jsonEscapeString e.sourceTitle)]),
    ("target", jsonRecord [("type", jsonEscapeString e.targetType),
      ("title", jsonEscapeString e.targetTitle)]),
    ("relationship", jsonEscapeString e.relationship.toText)]

/-- `puppet_catalog_to_json`. -/
def CatalogDocument.toJson (d : CatalogDocument) : Bytes :=
  jsonBlock 0
    [("certname", jsonEscapeString d.certname),
    ("version", jsonEscapeString d.version),
    ("environment", jsonEscapeString d.environment),
    ("catalog_format", ['1']),
    ("tags", jsonList jsonEscapeString d.tags),
    ("classes", jsonList jsonEscapeString d.classes),
    ("resources", jsonBlocks 1 DocumentResource.toJson d.resources),
    ("edges", jsonBlocks 1 CatalogEdge.toJson d.edges)] ++ ['\n']

end PuppetC
