import PuppetC.Facts
import PuppetC.Json.Writer

/-!
# Loading facts

The facts of a node come as one nested object, from a JSON or a YAML file. They are entered in
the flat store of the node under their dotted names: each value that is not a hash under the
keys that lead to it, joined by dots, and each value at the top also under its key. Reading the
files and choosing the node are left out.

## Main definitions

* `Json.toValue`: `json_value_to_puppet_value`.
* `factsProcessValue`, `factsProcessObject`: the facts of a YAML and of a JSON object.
-/

namespace PuppetC

namespace Json

mutual

/-- `json_value_to_puppet_value`. -/
def toValue : Json → Value
  | .null => .undef
  | .bool b => .bool b
  | .number q => .number q
  | .string s => .string (String.ofList s)
  | .array elements => .array (elementsToValues elements)
  | .object members => .hash (setEntries [] (membersToEntries members))

/-- The values of the elements of an array. -/
def elementsToValues : List Json → List Value
  | [] => []
  | v :: vs => v.toValue :: elementsToValues vs

/-- The values of the members of an object. -/
def membersToEntries : List (Bytes × Json) → List (String × Value)
  | [] => []
  | (k, v) :: ms => (String.ofList k, v.toValue) :: membersToEntries ms

end

end Json

/-- The name of a fact below a prefix. -/
def factName (before key : String) : String := if before = "" then key else before ++ "." ++ key

/-! ### YAML -/

/-- `puppet_facts_add_from_value`. -/
def factsAddFromValue (facts : Hash 16 Value) (name : String) (value : Value) : Hash 16 Value :=
  facts.set name value.copy

mutual

/-- `puppet_facts_process_value`. -/
def factsProcessValue (facts : Hash 16 Value) (before : String) : Value → Hash 16 Value
  | .hash entries => factsProcessEntries facts before entries
  | _ => facts

/-- The loop of `puppet_facts_process_value` over the entries of a hash. -/
def factsProcessEntries (facts : Hash 16 Value) (before : String) :
    List (String × Value) → Hash 16 Value
  | [] => facts
  | (key, value) :: entries =>
    let name := factName before key
    let facts :=
      match value with
      | .hash _ => factsProcessValue facts name value
      | _ => factsAddFromValue facts name value
    let facts := if before = "" then factsAddFromValue facts key value else facts
    factsProcessEntries facts before entries

end

/-! ### JSON -/

/-- `puppet_facts_add_fact`. -/
def factsAddFact (facts : Hash 16 Value) (name : String) (value : Json) : Hash 16 Value :=
  facts.set name value.toValue

mutual

/-- `puppet_facts_process_object`. -/
def factsProcessObject (facts : Hash 16 Value) (before : String) : Json → Hash 16 Value
  | .object members => factsProcessMembers facts before members
  | _ => facts

/-- The loop of `puppet_facts_process_object` over the members of an object. -/
def factsProcessMembers (facts : Hash 16 Value) (before : String) :
    List (Bytes × Json) → Hash 16 Value
  | [] => facts
  | (key, value) :: members =>
    let name := factName before (String.ofList key)
    let facts :=
      match value with
      | .object _ => factsProcessObject facts name value
      | _ => factsAddFact facts name value
    let facts := if before = "" then factsAddFact facts (String.ofList key) value else facts
    factsProcessMembers facts before members

end

end PuppetC
