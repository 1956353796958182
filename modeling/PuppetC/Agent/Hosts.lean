import PuppetC.Agent.TextProvider
import PuppetC.Support.Words

/-!
# The provider of host entries

The agent manages the line of a host name in the hosts file. It takes the first line that has the
name among its words after the first, whatever else is on the line, and puts a line of its own in
its place. Lines that start with a comment are passed over.

## Main definitions

* `findHostEntry`: `find_host_entry`.
* `stripBrackets`: the list of aliases without the brackets of an array.
* `buildHostEntry`: `build_host_entry`.
* `hostApply`: `host_apply`.
-/

namespace PuppetC

/-- What separates words on a line. -/
def isHostBlank (c : Char) : Bool := c = ' ' || c = '\t'

/-- The words of a line that are compared with a name: those after the first. -/
def comparedWords (line : Bytes) : List Bytes :=
  match line.dropWhile isHostBlank with
  | [] | '#' :: _ | '\n' :: _ => []
  | c :: t => (wordsOf isHostBlank ((c :: t).takeWhile (· ≠ '\n'))).tail

/-- The loop of `find_host_entry` over the lines with their newlines: what is before an entry,
blanks on its line included, the entry, and the lines after it. -/
def findHostLine (name : Bytes) : (before : Bytes) → List Bytes → Option (Bytes × Bytes × Bytes)
  | _, [] => none
  | before, line :: rest =>
    if (comparedWords line).contains name then
      some (before ++ line.takeWhile isHostBlank, line.dropWhile isHostBlank, rest.flatten)
    else findHostLine name (before ++ line) rest

/-- `find_host_entry`. -/
def findHostEntry (hosts name : Bytes) : Option (Bytes × Bytes × Bytes) :=
  findHostLine name [] (linePieces hosts)

/-- A text without the brackets of an array. -/
def stripBrackets (t : Bytes) : Bytes :=
  match t with
  | '[' :: rest => if rest.getLast? = some ']' then rest.dropLast else t
  | _ => t

/-- `build_host_entry`. -/
def buildHostEntry (hostname ip aliases : Bytes) : Bytes :=
  let size := ip.length + 1 + hostname.length + 2
  if aliases = [] then cutText size (ip ++ '\t' :: hostname ++ ['\n'])
  else
    cutText (size + (1 + aliases.length)) (ip ++ '\t' :: hostname ++ ' ' :: aliases ++ ['\n'])

namespace AgentResource

variable (r : AgentResource)

/-- The address of a resource; no address is like an empty one. -/
def hostIp : Bytes := (r.param? "ip").getD []

/-- The aliases of a resource, as they are written. -/
def hostAliases : Bytes := stripBrackets ((r.param? "host_aliases").getD [])

/-- The entry of a resource. -/
def hostEntry : Bytes := buildHostEntry r.title r.hostIp r.hostAliases

end AgentResource

/-- `write_hosts_file`, where `writeError` is the error with which a text cannot be written. -/
def writeHosts (writeError : Bytes → Option String) (stored new : Bytes) : TextApplied :=
  match writeError new with
  | none => ⟨.changed, none, new⟩
  | some error => ⟨.failed, some ("Failed to write /etc/hosts: " ++ error), stored⟩

/-- `host_apply`. -/
def hostApply (writeError : Bytes → Option String) (r : AgentResource) (noop : Bool)
    (stored : Bytes) : TextApplied :=
  if r.WantsPresent ∧ r.hostIp = [] then
    ⟨.failed, some "Host resource requires 'ip' parameter", stored⟩
  else
    let hosts := readText stored
    if ¬ r.WantsPresent then
      match findHostEntry hosts r.title with
      | none => ⟨.success, none, stored⟩
      | some (before, _, after) =>
        if noop then ⟨.skipped, none, stored⟩ else writeHosts writeError stored (before ++ after)
    else
      match findHostEntry hosts r.title with
      | some (before, entry, after) =>
        if entry = r.hostEntry then ⟨.success, none, stored⟩
        else if noop then ⟨.skipped, none, stored⟩
        else writeHosts writeError stored (before ++ r.hostEntry ++ after)
      | none =>
        if noop then ⟨.skipped, none, stored⟩
        else writeHosts writeError stored (withNewline hosts ++ r.hostEntry)

/-- The sizes of the buffer of an entry are enough. -/
theorem buildHostEntry_eq (hostname ip aliases : Bytes) :
    buildHostEntry hostname ip aliases =
      ip ++ '\t' :: hostname ++ (if aliases = [] then [] else ' ' :: aliases) ++ ['\n'] := by
  unfold buildHostEntry
  dsimp only
  split_ifs with h
  · rw [cutText_eq (by simp; omega), List.append_nil]
  · rw [cutText_eq (by simp; omega)]

/-! ### What a successful call does -/

section Successful

variable {writeError : Bytes → Option String} {r : AgentResource} {noop : Bool} {stored new : Bytes}

theorem writeHosts_text (h : (writeHosts writeError stored new).Successful) :
    (writeHosts writeError stored new).text = new := by
  unfold writeHosts at h ⊢
  cases herror : writeError new with
  | none => rfl
  | some error =>
    rw [herror] at h
    rcases h with h | h <;> cases h

theorem hostApply_absent (hwants : ¬ r.WantsPresent)
    (h : (hostApply writeError r noop stored).Successful) :
    (hostApply writeError r noop stored).text =
      match findHostEntry (readText stored) r.title with
      | none => stored
      | some (before, _, after) => before ++ after := by
  unfold hostApply at h ⊢
  rw [if_neg fun hand ↦ hwants hand.1] at h ⊢
  dsimp only at h ⊢
  rw [if_pos hwants] at h ⊢
  cases hfind : findHostEntry (readText stored) r.title with
  | none => rfl
  | some found =>
    rw [hfind] at h
    dsimp only at h ⊢
    by_cases hnoop : noop
    · rw [if_pos hnoop] at h
      rcases h with h | h <;> cases h
    · rw [if_neg hnoop] at h ⊢
      exact writeHosts_text h

theorem hostApply_present (hwants : r.WantsPresent)
    (h : (hostApply writeError r noop stored).Successful) :
    (hostApply writeError r noop stored).text =
      match findHostEntry (readText stored) r.title with
      | none => withNewline (readText stored) ++ r.hostEntry
      | some (before, entry, after) =>
        if entry = r.hostEntry then stored else before ++ r.hostEntry ++ after := by
  unfold hostApply at h ⊢
  by_cases hip : r.WantsPresent ∧ r.hostIp = []
  · rw [if_pos hip] at h
    rcases h with h | h <;> cases h
  rw [if_neg hip] at h ⊢
  dsimp only at h ⊢
  rw [if_neg (not_not.2 hwants)] at h ⊢
  cases hfind : findHostEntry (readText stored) r.title with
  | none =>
    rw [hfind] at h
    dsimp only at h ⊢
    by_cases hnoop : noop
    · rw [if_pos hnoop] at h
      rcases h with h | h <;> cases h
    · rw [if_neg hnoop] at h ⊢
      exact writeHosts_text h
  | some found =>
    rw [hfind] at h
    dsimp only at h ⊢
    split_ifs at h ⊢
    · rfl
    · rcases h with h | h <;> cases h
    · exact writeHosts_text h

end Successful

end PuppetC
