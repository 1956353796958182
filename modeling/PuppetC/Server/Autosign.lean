import PuppetC.Support.CString
import Mathlib.Data.List.DropRight

/-!
# Automatic signing policies

`puppet_autosign_should_sign` decides whether the certificate request for a certname is signed
without an administrator: always (`naive`), for the names of a whitelist file, when an executable
accepts the name (`policy`), or never (`none`).

The whitelist file and the executable are outside the program. `AutosignAnswers` holds the text of
the file, when it can be opened, and how a run of the executable ends on the text it is given.

## Main definitions

* `AutosignConfig`: `puppet_autosign_config_t`.
* `whitelistLines`: the lines that `fgets` reads, trimmed as the source does.
* `checkWhitelist`, `executePolicy`, `shouldSign`.

## Main results

* `entryAccepts_wildcard_iff`: an entry `*.domain` accepts the names that end in `.domain` and
  have something before it, and the name `*.domain` itself.
* `shouldSign_whitelist_iff`: a name is signed when an entry of the whitelist accepts it.
-/

namespace PuppetC

/-- `puppet_autosign_mode_t`. -/
inductive AutosignMode where
  | none
  | policy
  | whitelist
  | naive
  deriving DecidableEq

/-- `puppet_autosign_config_t`, without the text of its last error. -/
structure AutosignConfig where
  mode : AutosignMode
  policyPath : Option CString
  whitelistPath : Option CString
  deriving DecidableEq

/-- How `puppet_autosign_execute_policy` sees the executable end. -/
inductive PolicyEnd where
  | exited (code : ℕ)
  | signaled (signal : ℕ)
  | abnormal
  | notStarted
  | notAwaited
  deriving DecidableEq

/-- What the files and programs outside the server answer to one decision. -/
structure AutosignAnswers where
  whitelist : CString → Option (List UInt8)
  policy : CString → CString → PolicyEnd

/-! ### The whitelist -/

/-- The pieces that `fgets` reads with a buffer of `size + 1` bytes: up to a newline, and no more
than `size` bytes. -/
def fgetsPieces (size : ℕ) : List UInt8 → ℕ → List UInt8 → List (List UInt8)
  | piece, _, [] => if piece.isEmpty then [] else [piece.reverse]
  | piece, room, b :: rest =>
    if b = 10 ∨ room ≤ 1 then (b :: piece).reverse :: fgetsPieces size [] size rest
    else fgetsPieces size (b :: piece) (room - 1) rest

/-- `isspace` in the C locale. -/
def isSpaceByte (b : UInt8) : Bool :=
  b = 32 || (9 ≤ b && b ≤ 13)

/-- The end of a line is removed: its newline, and a carriage return in the last place but one. -/
def stripNewline (line : List UInt8) : List UInt8 :=
  if line.dropLast.getLast? = some 13 then line.dropLast.dropLast
  else if line.getLast? = some 10 then line.dropLast
  else line

/-- `trim`. -/
def trimBytes (line : List UInt8) : List UInt8 :=
  (line.dropWhile isSpaceByte).rdropWhile isSpaceByte

/-- The entries of a whitelist: lines that are neither empty nor comments. -/
def whitelistEntries (text : List UInt8) : List (List UInt8) :=
  ((fgetsPieces 511 [] 511 text).map fun piece ↦
    trimBytes (stripNewline (CString.ofBuffer piece).bytes)).filter fun entry ↦
      entry.head? ≠ none ∧ entry.head? ≠ some 35

/-- An entry of a whitelist accepts a name: it is the name, or `*` and a proper ending of the name
that starts with a dot. -/
def entryAccepts (entry certname : List UInt8) : Bool :=
  entry = certname ||
    (entry.take 2 = [42, 46] && (entry.drop 1).length < certname.length &&
      (entry.drop 1).isSuffixOf certname)

/-- `puppet_autosign_check_whitelist`. -/
def checkWhitelist (config : AutosignConfig) (answers : AutosignAnswers) (certname : CString) :
    Bool :=
  config.mode = .whitelist &&
    match config.whitelistPath with
    | none => false
    | some path => match answers.whitelist path with
      | none => false
      | some text => (whitelistEntries text).any (entryAccepts · certname.bytes)

/-! ### The policy executable -/

/-- A byte of a JSON string, as `fprint_json_escaped` writes it. -/
def jsonByte (b : UInt8) : List UInt8 :=
  let hex (n : UInt8) : UInt8 := if n < 10 then n + 48 else n + 87
  if b = 34 then [92, 34]
  else if b = 92 then [92, 92]
  else if b = 10 then [92, 110]
  else if b = 13 then [92, 114]
  else if b = 9 then [92, 116]
  else if b < 32 then [92, 117, 48, 48, hex (b / 16), hex (b % 16)]
  else [b]

/-- `fprint_json_escaped`. -/
def jsonEscaped (s : CString) : List UInt8 :=
  [34] ++ s.bytes.flatMap jsonByte ++ [34]

/-- The description of a request on the standard input of the executable. The handler of requests
gives neither subject nor fingerprint. -/
def policyInput (certname : CString) : CString :=
  CString.ofBuffer ((CString.ofString "\x7b\n  \"certname\": ").bytes ++ jsonEscaped certname ++
    (CString.ofString ",\n  \"subject\": \"\",\n  \"fingerprint\": \"\"\n\x7d\n").bytes)

/-- `puppet_autosign_execute_policy`. -/
def executePolicy (config : AutosignConfig) (answers : AutosignAnswers) (certname : CString) :
    Bool :=
  config.mode = .policy &&
    match config.policyPath with
    | none => false
    | some path => answers.policy path (policyInput certname) = .exited 0

/-! ### The decision -/

/-- `puppet_autosign_should_sign`. -/
def shouldSign (config : AutosignConfig) (answers : AutosignAnswers) (certname : CString) : Bool :=
  match config.mode with
  | .naive => true
  | .whitelist => checkWhitelist config answers certname
  | .policy => executePolicy config answers certname
  | .none => false

/-- A wildcard entry accepts the names below its domain, and its own text. -/
theorem entryAccepts_wildcard_iff {domain certname : List UInt8} :
    entryAccepts (42 :: 46 :: domain) certname ↔
      certname = 42 :: 46 :: domain ∨ ∃ label ≠ [], certname = label ++ 46 :: domain := by
  simp only [entryAccepts, Bool.or_eq_true, decide_eq_true_eq, Bool.and_eq_true,
    List.isSuffixOf_iff_suffix, List.take_succ_cons, List.take_zero, true_and, List.drop_succ_cons,
    List.drop_zero]
  refine or_congr eq_comm ⟨?_, ?_⟩
  · rintro ⟨hlen, label, rfl⟩
    refine ⟨label, fun hnil ↦ ?_, rfl⟩
    simp [hnil] at hlen
  · rintro ⟨label, hlabel, rfl⟩
    refine ⟨?_, label, rfl⟩
    have := List.length_pos_iff.2 hlabel
    simp only [List.length_append, List.length_cons]
    omega

/-- A name is signed in the mode `whitelist` when an entry of the file accepts it. -/
theorem shouldSign_whitelist_iff {config : AutosignConfig} {path : CString} {text : List UInt8}
    {answers : AutosignAnswers} (hmode : config.mode = .whitelist)
    (hpath : config.whitelistPath = some path) (htext : answers.whitelist path = some text)
    (certname : CString) :
    shouldSign config answers certname ↔
      ∃ entry ∈ whitelistEntries text, entryAccepts entry certname.bytes := by
  simp [shouldSign, checkWhitelist, hmode, hpath, htext]

end PuppetC
