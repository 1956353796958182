import Mathlib.Data.List.DropRight
import Mathlib.Logic.Function.Basic
import PuppetC.Json.Reader
import PuppetC.Support.TextLines

/-!
# Kernel parameters that persist

The value of a kernel parameter is kept in a file of its own, whose name is made of the name of
the parameter. Dots become hyphens there, slashes are left out and the end is cut, so different
parameters can share a file. The line is read back through a buffer of 1024 bytes, and what stands
around the value is trimmed.

## Main definitions

* `sysctlConfPath`: `get_sysctl_conf_path`.
* `checkSysctlPermanent`, `setSysctlPermanent`, `removeSysctlPermanent`: the functions of these
  names.
* `SysctlReadable`, `SysctlPersists`: the values that are read back, and what persistence means.

## Main results

* `check_set_iff`: when a value is read back.
* `sysctl_persists_iff`: when a parameter is kept and leaves another one alone.
-/

namespace PuppetC

/-! ### Files of parameters -/

/-- The loop over the name of a parameter, which stops when 255 characters are written. -/
def sysctlSafeName (name : Bytes) : Bytes :=
  (name.filterMap fun c ↦
    if c.isAlphanum || c = '_' || c = '-' then some c else if c = '.' then some '-' else none).take
    255

/-- `get_sysctl_conf_path`. -/
def sysctlConfPath (name : Bytes) : Bytes :=
  ("/etc/sysctl.d/99-puppet-".toList ++ sysctlSafeName name ++ ".conf".toList).take 511

/-- What is passed over in front of a name or a value. -/
def isConfBlank (c : Char) : Bool := c = ' ' || c = '\t'

/-- What is passed over behind a value. -/
def isConfEnd (c : Char) : Bool := c = '\n' || c = '\r' || c = ' ' || c = '\t'

/-- A value without what is around it. -/
def trimConfValue (t : Bytes) : Bytes := (t.dropWhile isConfBlank).rdropWhile isConfEnd

/-- The name and the value on a line. -/
def confEntry (line : Bytes) : Option (Bytes × Bytes) :=
  let p := (cString line).dropWhile isConfBlank
  if p.head? = some '#' ∨ p.head? = some '\n' ∨ p = [] ∨ '=' ∉ p then none
  else
    some (((p.takeWhile (· ≠ '=')).rdropWhile isConfBlank).take 255,
      trimConfValue (p.dropWhile (· ≠ '=')).tail)

/-- `check_sysctl_permanent`: the value of a parameter, if it is found. -/
def checkSysctlPermanent (files : Bytes → Option Bytes) (name : Bytes) : Option Bytes := do
  let text ← files (sysctlConfPath name)
  let entry ← ((fgetsLines 1023 text).filterMap confEntry).find? fun e ↦ e.1 = name
  return entry.2

/-- The text of the file of a parameter. -/
def sysctlConf (name value : Bytes) : Bytes :=
  "# Managed by Puppet".toList ++ '\n' :: (name ++ " = ".toList ++ value ++ ['\n'])

/-- `set_sysctl_permanent`, if the file can be written. -/
def setSysctlPermanent (writable : Bool) (name value : Bytes) (files : Bytes → Option Bytes) :
    Option (Bytes → Option Bytes) :=
  if writable then some (Function.update files (sysctlConfPath name) (some (sysctlConf name value)))
  else none

/-- `remove_sysctl_permanent`, if the file can be removed. -/
def removeSysctlPermanent (removable : Bool) (name : Bytes) (files : Bytes → Option Bytes) :
    Option (Bytes → Option Bytes) :=
  if removable then some (Function.update files (sysctlConfPath name) none) else none

/-! ### What should persist -/

/-- The names of parameters. -/
def IsSysctlName (name : Bytes) : Prop := ∀ c ∈ name, c.isAlphanum ∨ c ∈ "_-./".toList

/-- The values of parameters. -/
def IsSysctlValue (value : Bytes) : Prop := '\n' ∉ value ∧ '\x00' ∉ value

/-- A value is read back after it was written. -/
def ReadsBack (name value : Bytes) : Prop :=
  ∀ writable files files', setSysctlPermanent writable name value files = some files' →
    checkSysctlPermanent files' name = some value

/-- Setting or removing a parameter changes nothing for another one. -/
def LeavesAlone (name other : Bytes) : Prop :=
  ∀ files files', (∃ writable value, IsSysctlValue value ∧
      setSysctlPermanent writable name value files = some files') ∨
      (∃ removable, removeSysctlPermanent removable name files = some files') →
    checkSysctlPermanent files' other = checkSysctlPermanent files other

/-- A parameter is read back, and leaves another one alone. -/
def SysctlPersists (name value other : Bytes) : Prop :=
  ReadsBack name value ∧ (other ≠ name → LeavesAlone name other)

/-- The name and the line fit their buffers, and there is nothing to trim. -/
structure SysctlReadable (name value : Bytes) : Prop where
  name_le : name.length ≤ 255
  length_le : name.length + value.length ≤ 1020
  start : ∀ c ∈ value.head?, isConfBlank c = false
  ending : ∀ c ∈ value.getLast?, isConfEnd c = false

section Trim

variable {value : Bytes}

/-- The end of a line does not matter for a value. -/
theorem trimConfValue_newline (value : Bytes) :
    trimConfValue (value ++ ['\n']) = trimConfValue value := by
  have hend (t : Bytes) : (t ++ ['\n']).rdropWhile isConfEnd = t.rdropWhile isConfEnd :=
    List.rdropWhile_concat_pos _ _ _ rfl
  induction value with
  | nil => rfl
  | cons c value ih =>
    unfold trimConfValue at ih ⊢
    by_cases hc : isConfBlank c = true
    · rw [List.cons_append, List.dropWhile_cons_of_pos hc, List.dropWhile_cons_of_pos hc, ih]
    · rw [List.cons_append, List.dropWhile_cons_of_neg hc, List.dropWhile_cons_of_neg hc,
        ← List.cons_append, hend]

theorem length_trimConfValue_le (value : Bytes) : (trimConfValue value).length ≤ value.length :=
  (List.rdropWhile_prefix _ _).length_le.trans (List.dropWhile_sublist _).length_le

/-- A value that has nothing around it is left alone. -/
theorem trimConfValue_eq_self_iff : trimConfValue value = value ↔
    (∀ c ∈ value.head?, isConfBlank c = false) ∧ ∀ c ∈ value.getLast?, isConfEnd c = false := by
  have hhead : (∀ c ∈ value.head?, isConfBlank c = false) ↔
      value.dropWhile isConfBlank = value := by
    cases value with
    | nil => simp
    | cons c value =>
      by_cases hc : isConfBlank c = true
      · have hlength := (List.dropWhile_sublist isConfBlank (l := value)).length_le
        refine iff_of_false (by simp [hc]) fun h ↦ ?_
        rw [List.dropWhile_cons_of_pos hc] at h
        rw [h, List.length_cons] at hlength
        omega
      · simp [hc]
  have hlast : (∀ c ∈ value.getLast?, isConfEnd c = false) ↔
      value.rdropWhile isConfEnd = value := by
    rw [List.rdropWhile_eq_self_iff]
    cases value using List.reverseRecOn with
    | nil => simp
    | append_singleton value c => simp
  rw [hhead, hlast]
  constructor
  · intro h
    have hdrop : value.dropWhile isConfBlank = value := by
      refine (List.dropWhile_sublist _).eq_of_length_le ?_
      conv_lhs => rw [← h]
      exact (List.rdropWhile_prefix _ _).length_le
    refine ⟨hdrop, ?_⟩
    rwa [trimConfValue, hdrop] at h
  · rintro ⟨hdrop, hrdrop⟩
    rw [trimConfValue, hdrop, hrdrop]

end Trim

/-! ### Reading back -/

section Read

variable {name value other v t : Bytes} {files files' : Bytes → Option Bytes} {c d : Char}

/-- What a name is not made of. -/
theorem ne_of_mem_name (hname : IsSysctlName name) (hc : c ∈ name) (hd : d.isAlphanum = false)
    (hd' : d ∉ "_-./".toList) : c ≠ d := by
  rintro rfl
  rcases hname c hc with h | h
  · rw [hd] at h
    cases h
  · exact hd' h

theorem isConfBlank_of_mem_name (hname : IsSysctlName name) (hc : c ∈ name) :
    isConfBlank c = false := by
  rw [isConfBlank, Bool.or_eq_false_iff, decide_eq_false_iff_not, decide_eq_false_iff_not]
  exact ⟨ne_of_mem_name hname hc rfl (by decide), ne_of_mem_name hname hc rfl (by decide)⟩

/-- The name and the value on the line of a parameter. -/
theorem confEntry_line (hname : IsSysctlName name) (hv : '\x00' ∉ v) :
    confEntry (name ++ " = ".toList ++ v) = some (name.take 255, trimConfValue v) := by
  have hnul : cString (name ++ " = ".toList ++ v) = name ++ " = ".toList ++ v := by
    refine List.takeWhile_eq_self_iff.2 fun c hc ↦ decide_eq_true ?_
    rintro rfl
    rcases List.mem_append.1 hc with hc | hc
    · rcases List.mem_append.1 hc with hc | hc
      · exact ne_of_mem_name hname hc rfl (by decide) rfl
      · exact absurd hc (by decide)
    · exact hv hc
  obtain ⟨name', hp, hname', hequals⟩ : ∃ name',
      (name ++ " = ".toList ++ v).dropWhile isConfBlank = name' ++ '=' :: ' ' :: v ∧
        name'.rdropWhile isConfBlank = name ∧
        ∀ c ∈ name', c ≠ '=' ∧ c ≠ '#' ∧ c ≠ '\n' := by
    cases name with
    | nil => exact ⟨[], rfl, rfl, fun c hc ↦ absurd hc List.not_mem_nil⟩
    | cons c name =>
      have hne : name ++ [' '] ≠ [] := by simp
      refine ⟨c :: name ++ [' '], ?_, ?_, fun d hd ↦ ?_⟩
      · have hc := isConfBlank_of_mem_name hname List.mem_cons_self
        rw [List.cons_append, List.cons_append, List.dropWhile_cons_of_neg (by simp [hc])]
        simp
      · rw [List.rdropWhile_concat_pos _ _ _ rfl, List.rdropWhile_eq_self_iff]
        intro hcons
        rw [isConfBlank_of_mem_name hname (List.getLast_mem hcons)]
        exact Bool.false_ne_true
      · rcases List.mem_append.1 hd with hd | hd
        · exact ⟨ne_of_mem_name hname hd rfl (by decide), ne_of_mem_name hname hd rfl (by decide),
            ne_of_mem_name hname hd rfl (by decide)⟩
        · rw [List.mem_singleton.1 hd]
          decide
  have hequals' : ∀ c ∈ name', decide (c ≠ '=') = true := fun c hc ↦
    decide_eq_true (hequals c hc).1
  have hhead : (name' ++ '=' :: ' ' :: v).head? ≠ some '#' ∧
      (name' ++ '=' :: ' ' :: v).head? ≠ some '\n' := by
    cases name' with
    | nil => exact ⟨by simp, by simp⟩
    | cons c name' => simpa using (hequals c List.mem_cons_self).2
  have htake : (name' ++ '=' :: ' ' :: v).takeWhile (· ≠ '=') = name' := by
    rw [List.takeWhile_append_of_pos hequals']
    simp
  have hdrop : (name' ++ '=' :: ' ' :: v).dropWhile (· ≠ '=') = '=' :: ' ' :: v := by
    rw [List.dropWhile_append_of_pos hequals']
    simp
  unfold confEntry
  rw [hnul, hp]
  dsimp only
  rw [if_neg (not_or.2 ⟨hhead.1, not_or.2 ⟨hhead.2, not_or.2 ⟨by simp, not_not.2 (by simp)⟩⟩⟩),
    htake, hdrop, hname']
  rfl

/-- The names that are read have 255 characters at most. -/
theorem check_of_long (hlong : 255 < name.length) (files : Bytes → Option Bytes) :
    checkSysctlPermanent files name = none := by
  have hentry {line : Bytes} {e : Bytes × Bytes} (he : confEntry line = some e) : e.1 ≠ name := by
    unfold confEntry at he
    dsimp only at he
    split_ifs at he
    cases he
    rintro rfl
    rw [List.length_take] at hlong
    omega
  unfold checkSysctlPermanent
  cases files (sysctlConfPath name) with
  | none => rfl
  | some text =>
    have hfind : ((fgetsLines 1023 text).filterMap confEntry).find? (fun e ↦ e.1 = name) =
        none := by
      rw [List.find?_eq_none]
      intro e he
      obtain ⟨line, -, hline⟩ := List.mem_filterMap.1 he
      simpa using hentry hline
    rw [Option.bind_eq_bind, Option.bind_some, hfind]
    rfl

/-- The first piece of the line of a parameter. -/
theorem exists_fgetsLines (hname : IsSysctlName name) (hvalue : IsSysctlValue value)
    (hle : name.length ≤ 255) :
    ∃ v rest, fgetsLines 1023 (name ++ " = ".toList ++ value ++ ['\n']) =
        (name ++ " = ".toList ++ v) :: rest ∧
      '\x00' ∉ v ∧ trimConfValue v = trimConfValue (value.take (1020 - name.length)) := by
  have hline (v : Bytes) (hv : '\n' ∉ v) : '\n' ∉ name ++ " = ".toList ++ v := by
    rw [List.mem_append, List.mem_append, not_or, not_or]
    exact ⟨⟨fun hc ↦ ne_of_mem_name hname hc rfl (by decide) rfl, by decide⟩, hv⟩
  have hlength (v : Bytes) :
      (name ++ " = ".toList ++ v).length = name.length + 3 + v.length := by
    rw [List.length_append, List.length_append]
    rfl
  by_cases hfits : name.length + value.length < 1020
  · refine ⟨value ++ ['\n'], fgetsLines 1023 [], ?_, ?_, ?_⟩
    · rw [fgetsLines_line (hline _ hvalue.1) (by rw [hlength]; omega), List.append_assoc]
    · rw [List.mem_append, not_or]
      exact ⟨hvalue.2, by decide⟩
    · rw [trimConfValue_newline, List.take_of_length_le (by omega)]
  · have hsplit : name ++ " = ".toList ++ value ++ ['\n'] =
        (name ++ " = ".toList ++ value.take (1020 - name.length)) ++
          (value.drop (1020 - name.length) ++ ['\n']) := by
      conv_lhs => rw [← List.take_append_drop (1020 - name.length) value]
      simp only [List.append_assoc]
    refine ⟨value.take (1020 - name.length),
      fgetsLines 1023 (value.drop (1020 - name.length) ++ ['\n']), ?_,
      fun h ↦ hvalue.2 (List.mem_of_mem_take h), rfl⟩
    rw [hsplit]
    refine fgetsLines_full (hline _ fun h ↦ hvalue.1 (List.mem_of_mem_take h)) ?_ (by omega) _
    rw [hlength, List.length_take]
    omega

/-- What is found in the file of a parameter. -/
theorem check_conf (hname : IsSysctlName name) (hvalue : IsSysctlValue value)
    (hle : name.length ≤ 255) (hfile : files (sysctlConfPath name) = some (sysctlConf name value)) :
    checkSysctlPermanent files name = some (trimConfValue (value.take (1020 - name.length))) := by
  have htake : name.take 255 = name := List.take_of_length_le hle
  have hcomment : '\n' ∉ "# Managed by Puppet".toList := by decide
  obtain ⟨v, rest, hlines, hv, htrim⟩ := exists_fgetsLines hname hvalue hle
  have hfirst : confEntry ("# Managed by Puppet".toList ++ ['\n']) = none := by
    unfold confEntry
    exact if_pos (Or.inl rfl)
  have hconf : fgetsLines 1023 (sysctlConf name value) =
      ("# Managed by Puppet".toList ++ ['\n']) :: (name ++ " = ".toList ++ v) :: rest :=
    (fgetsLines_line hcomment (by decide) _).trans (congrArg _ hlines)
  have hentries : (fgetsLines 1023 (sysctlConf name value)).filterMap confEntry =
      (name, trimConfValue v) :: rest.filterMap confEntry := by
    rw [hconf, List.filterMap_cons_none hfirst, List.filterMap_cons_some (confEntry_line hname hv),
      htake]
  have hfind : ((name, trimConfValue v) :: rest.filterMap confEntry).find? (fun e ↦ e.1 = name) =
      some (name, trimConfValue v) := List.find?_cons_of_pos (decide_eq_true rfl)
  unfold checkSysctlPermanent
  rw [hfile, Option.bind_eq_bind, Option.bind_some, hentries, hfind, ← htrim]
  rfl

/-- A value is read back exactly if it can be read. -/
theorem check_set_iff (hname : IsSysctlName name) (hvalue : IsSysctlValue value) :
    ReadsBack name value ↔ SysctlReadable name value := by
  have hfile (files : Bytes → Option Bytes) :
      Function.update files (sysctlConfPath name) (some (sysctlConf name value))
        (sysctlConfPath name) = some (sysctlConf name value) := Function.update_self ..
  by_cases hle : name.length ≤ 255
  · have hread : ReadsBack name value ↔
        trimConfValue (value.take (1020 - name.length)) = value := by
      constructor
      · intro h
        have hcheck := h true (fun _ ↦ none) _ rfl
        rw [check_conf hname hvalue hle (hfile _)] at hcheck
        exact Option.some.inj hcheck
      · intro h writable files files' hset
        obtain ⟨-, heq⟩ := Option.ite_none_right_eq_some.1 hset
        cases heq
        rw [check_conf hname hvalue hle (hfile _), h]
    rw [hread]
    by_cases hfits : name.length + value.length ≤ 1020
    · rw [List.take_of_length_le (by omega), trimConfValue_eq_self_iff]
      exact ⟨fun h ↦ ⟨hle, hfits, h.1, h.2⟩, fun h ↦ ⟨h.start, h.ending⟩⟩
    · refine iff_of_false (fun h ↦ ?_) fun h ↦ hfits h.length_le
      have hlength := length_trimConfValue_le (value.take (1020 - name.length))
      rw [h, List.length_take] at hlength
      omega
  · refine iff_of_false (fun h ↦ ?_) fun h ↦ hle h.name_le
    have hcheck := h true (fun _ ↦ none) _ rfl
    rw [check_of_long (by omega)] at hcheck
    cases hcheck

end Read

/-! ### Other parameters -/

section Others

variable {name value other : Bytes} {files files' : Bytes → Option Bytes}

/-- Two parameters share a file exactly if their names are written the same there. -/
theorem sysctlConfPath_eq_iff : sysctlConfPath name = sysctlConfPath other ↔
    sysctlSafeName name = sysctlSafeName other := by
  have hpath (n : Bytes) : sysctlConfPath n =
      "/etc/sysctl.d/99-puppet-".toList ++ sysctlSafeName n ++ ".conf".toList := by
    have hlength : (sysctlSafeName n).length ≤ 255 := List.length_take_le _ _
    refine List.take_of_length_le ?_
    rw [List.length_append, List.length_append]
    change 24 + _ + 5 ≤ 511
    omega
  rw [hpath, hpath, List.append_left_inj, List.append_right_inj]

theorem check_congr (h : files' (sysctlConfPath name) = files (sysctlConfPath name)) :
    checkSysctlPermanent files' name = checkSysctlPermanent files name := by
  unfold checkSysctlPermanent
  rw [h]

/-- A parameter leaves another one alone if they do not share a file, or the other one is never
found. -/
theorem leavesAlone_iff (hother : IsSysctlName other) :
    LeavesAlone name other ↔
      sysctlSafeName name ≠ sysctlSafeName other ∨ 255 < other.length := by
  constructor
  · intro h
    by_contra hnot
    rw [not_or, not_not, Nat.not_lt] at hnot
    obtain ⟨hsafe, hle⟩ := hnot
    have hvalue : IsSysctlValue ['1'] := ⟨by decide, by decide⟩
    have hpath := sysctlConfPath_eq_iff.2 hsafe
    let files := Function.update (fun _ ↦ none) (sysctlConfPath other)
      (some (sysctlConf other ['1']))
    have hbefore : checkSysctlPermanent files other = some ['1'] :=
      (check_set_iff hother hvalue).2 ⟨hle, by rw [List.length_singleton]; omega,
        by simp [isConfBlank], by simp [isConfEnd]⟩ true (fun _ ↦ none) files rfl
    have hafter := h files (Function.update files (sysctlConfPath name) none)
      (Or.inr ⟨true, rfl⟩)
    rw [hbefore, checkSysctlPermanent, hpath, Function.update_self] at hafter
    cases hafter
  · rintro (hsafe | hlong) files files' hstep
    · have hpath : sysctlConfPath other ≠ sysctlConfPath name := fun h ↦
        hsafe (sysctlConfPath_eq_iff.1 h).symm
      refine check_congr ?_
      rcases hstep with ⟨writable, value, -, hset⟩ | ⟨removable, hremove⟩
      · obtain ⟨-, heq⟩ := Option.ite_none_right_eq_some.1 hset
        cases heq
        exact Function.update_of_ne hpath _ _
      · obtain ⟨-, heq⟩ := Option.ite_none_right_eq_some.1 hremove
        cases heq
        exact Function.update_of_ne hpath _ _
    · rw [check_of_long hlong, check_of_long hlong]

end Others

end PuppetC
