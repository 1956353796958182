import PuppetC.Support.BucketTable
import PuppetC.Text

/-!
# Puppet values

The values of the language (`puppet_value_t`) and the hash tables they and the environment are
made of (`puppet_hash_t`). A table has a fixed number of buckets, chosen when it is created, and
its entries are kept in the order in which the source's loops over the buckets visit them.

## Main definitions

* `Value`: a Puppet value; a `double` is the rational number it denotes.
* `bucketOf`: the bucket of a key, from `hash_string`.
* `Hash`: a table from names to values of any kind, with a given number of buckets.
* `Value.copy`: `puppet_value_copy`.
* `Value.toText`: `puppet_value_to_string`.
* `Value.isTruthy`: truth of a value in a condition.
-/

namespace PuppetC

/-- A Puppet value. The entries of a hash stand in the order of its buckets. -/
inductive Value where
  | undef
  | bool (b : Bool)
  | string (s : String)
  | number (n : ℚ)
  | array (items : List Value)
  | hash (entries : List (String × Value))
  | regexp (pattern : String)
  | deferred (functionName : String) (arguments : List Value)

namespace Value

mutual

/-- Equality of values is decidable. -/
def decEq : (v w : Value) → Decidable (v = w)
  | .undef, .undef => isTrue rfl
  | .bool b, .bool b' => decidable_of_iff (b = b') (by simp)
  | .string s, .string s' => decidable_of_iff (s = s') (by simp)
  | .number n, .number n' => decidable_of_iff (n = n') (by simp)
  | .array xs, .array ys =>
    match decEqList xs ys with
    | isTrue h => isTrue (by rw [h])
    | isFalse h => isFalse (by simpa using h)
  | .hash es, .hash fs =>
    match decEqEntries es fs with
    | isTrue h => isTrue (by rw [h])
    | isFalse h => isFalse (by simpa using h)
  | .regexp s, .regexp s' => decidable_of_iff (s = s') (by simp)
  | .deferred f xs, .deferred g ys =>
    match decEqList xs ys with
    | isTrue h => decidable_of_iff (f = g) (by simp [h])
    | isFalse h => isFalse (by simp [h])
  | .undef, .bool _ | .undef, .string _ | .undef, .number _ | .undef, .array _
  | .undef, .hash _ | .undef, .regexp _ | .undef, .deferred .. => isFalse (by simp)
  | .bool _, .undef | .bool _, .string _ | .bool _, .number _ | .bool _, .array _
  | .bool _, .hash _ | .bool _, .regexp _ | .bool _, .deferred .. => isFalse (by simp)
  | .string _, .undef | .string _, .bool _ | .string _, .number _ | .string _, .array _
  | .string _, .hash _ | .string _, .regexp _ | .string _, .deferred .. => isFalse (by simp)
  | .number _, .undef | .number _, .bool _ | .number _, .string _ | .number _, .array _
  | .number _, .hash _ | .number _, .regexp _ | .number _, .deferred .. => isFalse (by simp)
  | .array _, .undef | .array _, .bool _ | .array _, .string _ | .array _, .number _
  | .array _, .hash _ | .array _, .regexp _ | .array _, .deferred .. => isFalse (by simp)
  | .hash _, .undef | .hash _, .bool _ | .hash _, .string _ | .hash _, .number _
  | .hash _, .array _ | .hash _, .regexp _ | .hash _, .deferred .. => isFalse (by simp)
  | .regexp _, .undef | .regexp _, .bool _ | .regexp _, .string _ | .regexp _, .number _
  | .regexp _, .array _ | .regexp _, .hash _ | .regexp _, .deferred .. => isFalse (by simp)
  | .deferred .., .undef | .deferred .., .bool _ | .deferred .., .string _
  | .deferred .., .number _ | .deferred .., .array _ | .deferred .., .hash _
  | .deferred .., .regexp _ => isFalse (by simp)

/-- Equality of lists of values is decidable. -/
def decEqList : (xs ys : List Value) → Decidable (xs = ys)
  | [], [] => isTrue rfl
  | x :: xs, y :: ys =>
    match decEq x y, decEqList xs ys with
    | isTrue h, isTrue h' => isTrue (by rw [h, h'])
    | isFalse h, _ => isFalse (by simp [h])
    | _, isFalse h' => isFalse (by simp [h'])
  | [], _ :: _ => isFalse (by simp)
  | _ :: _, [] => isFalse (by simp)

/-- Equality of the entries of hashes is decidable. -/
def decEqEntries : (es fs : List (String × Value)) → Decidable (es = fs)
  | [], [] => isTrue rfl
  | (k, v) :: es, (k', v') :: fs =>
    match decEq v v', decEqEntries es fs with
    | isTrue h, isTrue h' => decidable_of_iff (k = k') (by simp [h, h'])
    | isFalse h, _ => isFalse (by simp [h])
    | _, isFalse h' => isFalse (by simp [h'])
  | [], _ :: _ => isFalse (by simp)
  | _ :: _, [] => isFalse (by simp)

end

instance : DecidableEq Value := decEq

instance : Inhabited Value := ⟨.undef⟩

end Value

/-! ### Hash tables -/

/-- The value that one `char` adds in `hash_string`: a byte is signed, modulo `2 ^ 32`. -/
def signedByte (c : Char) : ℕ :=
  if c.toNat < 128 then c.toNat else c.toNat + (2 ^ 32 - 256)

/-- `hash_string`. -/
def hashString (s : String) : ℕ :=
  s.toList.foldl (fun hash c ↦ (hash * 33 + signedByte c) % 2 ^ 32) 5381

/-- The bucket of a key in a table of `count` buckets. -/
def bucketOf (count : ℕ) (key : String) : ℕ := hashString key % count

/-- A hash table from names, with `count` buckets. -/
abbrev Hash (count : ℕ) (β : Type) : Type := Table (bucketOf count) β

/-- `puppet_hash_get` on the entries of a hash value. -/
def hashGet (entries : List (String × Value)) (key : String) : Option Value :=
  Bucket.get key entries

/-- `puppet_hash_set` on the entries of a hash value, which has 16 buckets. -/
def hashSet (entries : List (String × Value)) (key : String) (value : Value) :
    List (String × Value) :=
  Bucket.set (bucketOf 16) key value entries

/-- Set entries in a hash one after the other. -/
def setEntries (entries : List (String × Value)) :
    List (String × Value) → List (String × Value)
  | [] => entries
  | (k, v) :: es => setEntries (hashSet entries k v) es

namespace Value

/-! ### Copies -/

mutual

/-- `puppet_value_copy`. A hash is built anew entry by entry, which turns the order of its
entries within each bucket around. -/
def copy : Value → Value
  | .array items => .array (copyList items)
  | .hash entries => .hash (setEntries [] (copyEntries entries))
  | .deferred f args => .deferred f (copyList args)
  | v => v

/-- Copies of the items of an array. -/
def copyList : List Value → List Value
  | [] => []
  | v :: vs => copy v :: copyList vs

/-- Copies of the values of a hash. -/
def copyEntries : List (String × Value) → List (String × Value)
  | [] => []
  | (k, v) :: es => (k, copy v) :: copyEntries es

end

/-! ### Values as text -/

/-- The size of the buffer `puppet_value_to_string` formats arrays and hashes in. -/
def textRoom : ℕ := 4095

/-- Append a text as far as the buffer has room for it. -/
def appendCut (buf : String) (s : String) : String :=
  buf ++ String.ofList (s.toList.take (textRoom - buf.length))

/-- Append a text if the buffer has room for all of it. -/
def appendWhole (buf : String) (s : String) : String :=
  if buf.length + s.length ≤ textRoom then buf ++ s else buf

mutual

/-- `puppet_value_to_string_buffer`. -/
def toTextBuffer (buf : String) : Value → String
  | .string s => appendCut buf s
  | .number n => appendCut buf (formatG n)
  | .bool b => appendWhole buf (if b then "true" else "false")
  | .array items => appendCut (itemsToTextBuffer (appendCut buf "[") true items) "]"
  | .hash entries => appendCut (entriesToTextBuffer (appendCut buf "\x7b") true entries) "\x7d"
  | .undef | .regexp _ | .deferred .. => buf

/-- The loop of `puppet_value_to_string_buffer` over the items of an array. -/
def itemsToTextBuffer (buf : String) (first : Bool) : List Value → String
  | [] => buf
  | v :: vs =>
    if textRoom ≤ buf.length then buf
    else itemsToTextBuffer (toTextBuffer (if first then buf else appendWhole buf ", ") v) false vs

/-- The loop of `puppet_value_to_string_buffer` over the entries of a hash. -/
def entriesToTextBuffer (buf : String) (first : Bool) : List (String × Value) → String
  | [] => buf
  | (k, v) :: es =>
    if textRoom ≤ buf.length then buf
    else
      let buf := appendCut (if first then buf else appendWhole buf ", ") k
      entriesToTextBuffer (toTextBuffer (appendWhole buf " => ") v) false es

end

/-- `puppet_value_to_string`. -/
def toText : Value → String
  | .string s => s
  | .number n => formatG n
  | .bool b => if b then "true" else "false"
  | v@(.array _) => toTextBuffer "" v
  | v@(.hash _) => toTextBuffer "" v
  | .undef | .regexp _ | .deferred .. => ""

/-- Truth of a value: `undef` and `false` are false, everything else is true. -/
def isTruthy : Value → Bool
  | .undef => false
  | .bool b => b
  | _ => true

end Value

end PuppetC
