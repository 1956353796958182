import PuppetC.Agent.Hosts
import PuppetC.Support.Separator

/-!
# The provider of authorized keys

The agent manages a line of a user's `authorized_keys`. It searches the line by the first occurrence
of the key, which has to be a word, and, if a key is not wanted, by the end of the line. It puts a
line of its own in the place of the first line that it finds. Lines that start with a comment are
passed over.

## Main definitions

* `findKeyEntry`, `findKeyByName`: `find_key_entry`, `find_key_by_name`.
* `buildKeyEntry`: `build_key_entry`.
* `KeySystem`: what the agent finds out about a system.
* `keyApply`: `ssh_authorized_key_apply`.
-/

namespace PuppetC

/-! ### The search -/

/-- The test of `find_key_entry`: the first occurrence of the key in the text from the start of the
line on is in the line, behind a blank, and ends with a blank or with the line. -/
def keyFound (key line following : Bytes) : Bool :=
  let eol := (line.takeWhile (· ≠ '\n')).length
  match cutAt key (line ++ following) with
  | none => false
  | some (before, after) =>
    decide (before.length < eol) && before.getLast?.any isHostBlank &&
      (decide (eol ≤ before.length + key.length) ||
        after.head?.any fun c ↦ isHostBlank c || c = '\n')

/-- The test of `find_key_by_name`: the line ends with the name, behind a blank. -/
def nameFound (name line _following : Bytes) : Bool :=
  let l := line.takeWhile (· ≠ '\n')
  decide (name.length < l.length) && (l.take (l.length - name.length)).getLast?.any isHostBlank &&
    l.drop (l.length - name.length) = name

/-- The loops of both functions over the lines with their newlines: what is before the line that is
found, its leading blanks included, the line, and the lines after it. -/
def findLine (found : Bytes → Bytes → Bool) :
    (before : Bytes) → List Bytes → Option (Bytes × Bytes × Bytes)
  | _, [] => none
  | before, line :: rest =>
    let l := line.dropWhile isHostBlank
    if l.head? ≠ some '#' ∧ l.head? ≠ some '\n' ∧ found l rest.flatten then
      some (before ++ line.takeWhile isHostBlank, l, rest.flatten)
    else findLine found (before ++ line) rest

/-- `find_key_entry`. -/
def findKeyEntry (content key : Bytes) : Option (Bytes × Bytes × Bytes) :=
  findLine (keyFound key) [] (linePieces content)

/-- `find_key_by_name`. -/
def findKeyByName (content name : Bytes) : Option (Bytes × Bytes × Bytes) :=
  findLine (nameFound name) [] (linePieces content)

/-! ### Entries -/

/-- `build_key_entry`. -/
def buildKeyEntry (name type key options : Bytes) : Bytes :=
  let size := type.length + 1 + key.length + 1 + name.length + 2
  if options = [] then cutText size (type ++ ' ' :: key ++ ' ' :: name ++ ['\n'])
  else
    cutText (size + (options.length + 1))
      (options ++ ' ' :: type ++ ' ' :: key ++ ' ' :: name ++ ['\n'])

namespace AgentResource

variable (r : AgentResource)

/-- The text of a parameter; none is like an empty one. -/
def text (name : String) : Bytes := (r.param? name).getD []

/-- `parse_options`: the options of a resource, as they are written. -/
def keyOptions : Bytes := stripBrackets (r.text "options")

/-- The entry of a resource. -/
def keyEntry : Bytes := buildKeyEntry r.title (r.text "type") (r.text "key") r.keyOptions

/-- The line that a call edits: it is searched by the key and, if it is not wanted, by the title. -/
def findKey (content : Bytes) : Option (Bytes × Bytes × Bytes) :=
  let byKey := (r.param? "key").bind (findKeyEntry content)
  if byKey = none ∧ ¬ r.WantsPresent then findKeyByName content r.title else byKey

end AgentResource

/-! ### Calls -/

/-- What is read of a text into a buffer of 256 KiB. -/
def readKeys (stored : Bytes) : Bytes := (stored.take (256 * 1024 - 1)).takeWhile (· ≠ '\x00')

/-- What the agent finds out about a system: the homes of users, whether their directories for keys
can be made, and the errors with which texts cannot be written. -/
structure KeySystem where
  home : Bytes → Option Bytes
  sshDir : Bytes → Bool
  writeError : Bytes → Bytes → Option String

/-- `build_authorized_keys_path`. -/
def authorizedKeysPath (home : Bytes) (target : Option Bytes) : Bytes :=
  if target.getD [] = [] then home ++ "/.ssh/authorized_keys".toList else target.getD []

/-- `write_authorized_keys`. -/
def writeKeys (sys : KeySystem) (path stored new : Bytes) : TextApplied :=
  match sys.writeError path new with
  | none => ⟨.changed, none, new⟩
  | some error =>
    ⟨.failed, some ("Failed to write " ++ String.ofList path ++ ": " ++ error), stored⟩

/-- `ssh_authorized_key_apply`. -/
def keyApply (sys : KeySystem) (r : AgentResource) (noop : Bool) (stored : Bytes) : TextApplied :=
  let fail (error : String) : TextApplied := ⟨.failed, some error, stored⟩
  if r.text "user" = [] then fail "ssh_authorized_key requires 'user' parameter"
  else if r.WantsPresent ∧ r.text "key" = [] then
    fail "ssh_authorized_key requires 'key' parameter"
  else if r.WantsPresent ∧ r.text "type" = [] then
    fail "ssh_authorized_key requires 'type' parameter"
  else
    match sys.home (r.text "user") with
    | none => fail ("User '" ++ String.ofList (r.text "user") ++ "' does not exist")
    | some home =>
      if r.WantsPresent ∧ r.param? "target" = none ∧ sys.sshDir (r.text "user") = false ∧
          noop = false then
        fail ("Failed to create .ssh directory for user '" ++ String.ofList (r.text "user") ++ "'")
      else
        let path := authorizedKeysPath home (r.param? "target")
        let content := readKeys stored
        if ¬ r.WantsPresent then
          match r.findKey content with
          | none => ⟨.success, none, stored⟩
          | some (before, _, after) =>
            if noop then ⟨.skipped, none, stored⟩ else writeKeys sys path stored (before ++ after)
        else
          match r.findKey content with
          | some (before, entry, after) =>
            if entry = r.keyEntry then ⟨.success, none, stored⟩
            else if noop then ⟨.skipped, none, stored⟩
            else writeKeys sys path stored (before ++ r.keyEntry ++ after)
          | none =>
            if noop then ⟨.skipped, none, stored⟩
            else writeKeys sys path stored (withNewline content ++ r.keyEntry)

/-- A text that fits the buffer is read whole. -/
theorem readKeys_eq {stored : Bytes} (hsize : stored.length < 256 * 1024)
    (hnul : '\x00' ∉ stored) : readKeys stored = stored := by
  rw [readKeys, List.take_of_length_le (by omega), List.takeWhile_eq_self_iff]
  exact fun c hc ↦ decide_eq_true (ne_of_mem_of_not_mem hc hnul)

/-- The sizes of the buffer of an entry are enough. -/
theorem buildKeyEntry_eq (name type key options : Bytes) :
    buildKeyEntry name type key options =
      (if options = [] then [] else options ++ [' ']) ++
        (type ++ ' ' :: key ++ ' ' :: name) ++ ['\n'] := by
  unfold buildKeyEntry
  dsimp only
  split_ifs with h
  · rw [cutText_eq (by simp; omega), List.nil_append]
  · rw [cutText_eq (by simp; omega)]
    simp

/-! ### What a successful call does -/

section Successful

variable {sys : KeySystem} {r : AgentResource} {noop : Bool} {stored new path : Bytes}

theorem writeKeys_text (h : (writeKeys sys path stored new).Successful) :
    (writeKeys sys path stored new).text = new := by
  unfold writeKeys at h ⊢
  cases herror : sys.writeError path new with
  | none => rfl
  | some error =>
    rw [herror] at h
    rcases h with h | h <;> cases h

/-- What a successful call leaves in the file. -/
def keyResult (r : AgentResource) (stored : Bytes) : Bytes :=
  match r.findKey (readKeys stored) with
  | none =>
    if r.WantsPresent then withNewline (readKeys stored) ++ r.keyEntry else stored
  | some (before, entry, after) =>
    if ¬ r.WantsPresent then before ++ after
    else if entry = r.keyEntry then stored
    else before ++ r.keyEntry ++ after

theorem keyApply_text (h : (keyApply sys r noop stored).Successful) :
    (keyApply sys r noop stored).text = keyResult r stored := by
  have hfailed (error : Option String) :
      ¬ (⟨.failed, error, stored⟩ : TextApplied).Successful := by
    rintro (h | h) <;> cases h
  have hskipped : ¬ (⟨.skipped, none, stored⟩ : TextApplied).Successful := by
    rintro (h | h) <;> cases h
  unfold keyApply at h ⊢
  dsimp only at h ⊢
  by_cases huser : r.text "user" = []
  · rw [if_pos huser] at h
    exact absurd h (hfailed _)
  by_cases hkey : r.WantsPresent ∧ r.text "key" = []
  · rw [if_neg huser, if_pos hkey] at h
    exact absurd h (hfailed _)
  by_cases htype : r.WantsPresent ∧ r.text "type" = []
  · rw [if_neg huser, if_neg hkey, if_pos htype] at h
    exact absurd h (hfailed _)
  rw [if_neg huser, if_neg hkey, if_neg htype] at h ⊢
  cases hhome : sys.home (r.text "user") with
  | none =>
    rw [hhome] at h
    exact absurd h (hfailed _)
  | some home =>
    rw [hhome] at h
    dsimp only at h ⊢
    by_cases hdir : r.WantsPresent ∧ r.param? "target" = none ∧
        sys.sshDir (r.text "user") = false ∧ noop = false
    · rw [if_pos hdir] at h
      exact absurd h (hfailed _)
    rw [if_neg hdir] at h ⊢
    rw [keyResult]
    cases hfind : r.findKey (readKeys stored) with
    | none =>
      rw [hfind] at h
      dsimp only at h ⊢
      split_ifs at h ⊢ with hwants hnoop
      · exact absurd h hskipped
      · exact writeKeys_text h
      · rfl
    | some found =>
      rw [hfind] at h
      dsimp only at h ⊢
      split_ifs at h ⊢ with hwants hentry hnoop hnoop
      · rfl
      · exact absurd h hskipped
      · exact writeKeys_text h
      · exact absurd h hskipped
      · exact writeKeys_text h

end Successful

end PuppetC
