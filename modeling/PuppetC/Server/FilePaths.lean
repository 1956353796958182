import PuppetC.Server.PluginSync
import PuppetC.Server.Authority
import PuppetC.Support.PathPosition
import Mathlib.Data.List.Chain
import Mathlib.Data.List.Infix

/-!
# The paths of files that the server opens

A request names a file by a part of its URL, and a certificate or a signing request is named by a
certname. The paths are put together in buffers of a fixed size (`handle_plugin_content` and
`handle_file_content` in `puppetc_server.c`, the storage functions in `puppet_ca.c`). Here the file
that is opened is compared with the directory it should stand in.

## Main definitions

* `pluginFile`, `moduleFile`, `handleFileContent`: the files that URLs name.
* `CertificateCall`: the functions that keep certificates and requests, and the files they open.
* `FileAccess.Safe`: the file stands in its directory, its path is whole, and it is not the file of
  another certname.
* `FileAccess.Fits`: what has to hold of a URL or a certname.

## Main results

* `CertificateCall.run_files`, `CertificateCall.run_congr`: a call works on the file it opens only.
* `FileAccess.moduleContent_served`, `FileAccess.pluginContent_served`: what is served of a safe
  access stands below the `files` or `lib` directory of a module.
* `FileAccess.safe_iff_fits`: an access is safe just when its URL or certname fits.
* `certificate_answers_kept`: calls for other certnames do not change what a call answers.
-/

namespace PuppetC

/-! ### Files that URLs name -/

/-- A file below the directory of modules. -/
structure RequestedFile where
  modulesPath : Bytes
  relPath : Bytes

namespace RequestedFile

/-- The path of a file. -/
def path (f : RequestedFile) : Bytes := f.modulesPath ++ '/' :: f.relPath

/-- The path that is opened: what is left of it in a buffer of 4096 bytes. -/
def openedPath (f : RequestedFile) : Bytes := cutTo 4096 f.path

end RequestedFile

/-- The response with the content of a file of a limited size. A directory can be opened but not be
read. -/
def serveFile (fs : FileSystem Bytes) (maxSize : ℕ) (tooLarge : Bytes) (path : Bytes) :
    HttpResponse :=
  match fs.resolve path with
  | none | some .socket => sendError 404 "File not found".toList
  | some (.directory _) => sendError 500 "Failed to read file".toList
  | some (.file content) =>
    if maxSize < content.length then sendError 500 tooLarge else ⟨200, content⟩

/-- The file that a URL of a plugin names, or the refusal of the request. -/
def pluginFile (modulesPath : Option Bytes) (url : Bytes) : Except HttpResponse RequestedFile :=
  let relPath := url.drop pluginPrefix.length
  if ¬ pluginPrefix.isPrefixOf url then .error (sendError 400 "Invalid plugin URL format".toList)
  else if relPath = [] then .error (sendError 400 "Missing file path".toList)
  else if hasDotDot relPath then .error (sendError 403 "Path traversal not allowed".toList)
  else match modulesPath with
    | none => .error (sendError 500 "Modules path not configured".toList)
    | some modulesPath => .ok ⟨modulesPath, relPath⟩

/-- A plugin is served from the file that its URL names. -/
theorem handlePluginContent_eq (fs : FileSystem Bytes) (modulesPath : Option Bytes) (url : Bytes) :
    handlePluginContent fs modulesPath url =
      match pluginFile modulesPath url with
      | .error response => response
      | .ok f => serveFile fs maxPluginSize "File too large".toList f.openedPath := by
  unfold handlePluginContent pluginFile
  dsimp only
  split_ifs
  · rfl
  · rfl
  · cases modulesPath <;> rfl
  · rfl

/-- The start of the URLs of files of modules. -/
def fileContentPrefix : Bytes := "/puppet/v3/file_content/modules/".toList

/-- A file of a module. -/
structure ModuleFile where
  moduleName : Bytes
  modulesPath : Bytes
  filePath : Bytes

/-- The file as one below the directory of modules. -/
def ModuleFile.file (f : ModuleFile) : RequestedFile where
  modulesPath := f.modulesPath
  relPath := f.moduleName ++ "/files/".toList ++ f.filePath

/-- The file of a module that a URL names, or the refusal of the request. -/
def moduleFile (modulesPath : Option Bytes) (url : Bytes) : Except HttpResponse ModuleFile :=
  let moduleAndPath := url.drop fileContentPrefix.length
  let moduleName := moduleAndPath.takeWhile (· ≠ '/')
  let filePath := moduleAndPath.drop (moduleName.length + 1)
  if ¬ fileContentPrefix.isPrefixOf url then
    .error (sendError 400 "Invalid file_content URL format".toList)
  else if '/' ∉ moduleAndPath ∨ moduleName = [] then
    .error (sendError 400 "Missing module name or file path".toList)
  else if 256 ≤ moduleName.length then .error (sendError 400 "Module name too long".toList)
  else if filePath = [] then .error (sendError 400 "Missing file path".toList)
  else if hasDotDot filePath || hasDotDot moduleName then
    .error (sendError 403 "Path traversal not allowed".toList)
  else match modulesPath with
    | none => .error (sendError 500 "Modules path not configured".toList)
    | some modulesPath => .ok ⟨moduleName, modulesPath, filePath⟩

/-- The size up to which files of modules are served. -/
def maxFileSize : ℕ := 100 * 1024 * 1024

/-- `handle_file_content`. -/
def handleFileContent (fs : FileSystem Bytes) (modulesPath : Option Bytes) (url : Bytes) :
    HttpResponse :=
  match moduleFile modulesPath url with
  | .error response => response
  | .ok f => serveFile fs maxFileSize "File too large or invalid".toList f.file.openedPath

/-! ### The positions of files that URLs name -/

theorem hasDotDot_of_mem_splitOn {path : Bytes} (h : hasDotDot path = false) :
    ['.', '.'] ∉ path.splitOn '/' := by
  have hjoin : ∀ names : List Bytes, ['.', '.'] ∈ names → hasDotDot (joinPath names) = true := by
    intro names hmem
    induction names with
    | nil => cases hmem
    | cons name names ih =>
      by_cases hnil : names = []
      · rw [hnil, List.mem_singleton] at hmem
        rw [hnil, joinPath_singleton, ← hmem]
        rfl
      · rw [joinPath_cons hnil, hasDotDot_append_slash, Bool.or_eq_true]
        rcases List.mem_cons.1 hmem with rfl | hmem
        · exact .inl rfl
        · exact .inr (ih hmem)
  intro hmem
  have := hjoin _ hmem
  rw [joinPath, List.intercalate_splitOn, h] at this
  cases this

theorem cutTo_eq_iff {size : ℕ} (hsize : 0 < size) (s : Bytes) :
    cutTo size s = s ↔ s.length < size := by
  rw [cutTo, List.take_eq_self_iff]
  omega

theorem ModuleFile.relPath_file (f : ModuleFile) :
    f.file.relPath = f.moduleName ++ '/' :: ("files".toList ++ '/' :: f.filePath) := by
  rw [ModuleFile.file, List.append_assoc]
  rfl

theorem RequestedFile.openedPath_eq_iff (f : RequestedFile) :
    f.openedPath = f.path ↔ f.path.length < 4096 :=
  cutTo_eq_iff (by omega) f.path

/-- The position of a file whose path is whole. -/
theorem RequestedFile.locateBelow_openedPath {f : RequestedFile}
    (hdots : hasDotDot f.relPath = false) (hwhole : f.openedPath = f.path) :
    locateBelow f.modulesPath f.openedPath = some (properNames f.relPath) := by
  rw [hwhole, RequestedFile.path, locateBelow_append,
    locate_eq_properNames (hasDotDot_of_mem_splitOn hdots)]

theorem pluginFile_eq_ok {modulesPath : Option Bytes} {url : Bytes} {f : RequestedFile}
    (h : pluginFile modulesPath url = .ok f) :
    modulesPath = some f.modulesPath ∧ hasDotDot f.relPath = false := by
  unfold pluginFile at h
  dsimp only at h
  split_ifs at h with hprefix hnil hdots
  cases modulesPath with
  | none => cases h
  | some modulesPath =>
    cases h
    exact ⟨rfl, eq_false_of_ne_true hdots⟩

theorem moduleFile_eq_ok {modulesPath : Option Bytes} {url : Bytes} {f : ModuleFile}
    (h : moduleFile modulesPath url = .ok f) :
    modulesPath = some f.modulesPath ∧
      '/' ∉ f.moduleName ∧ f.moduleName ≠ [] ∧ hasDotDot f.file.relPath = false := by
  unfold moduleFile at h
  dsimp only at h
  split_ifs at h with hprefix hslash hlong hnil hdots
  cases modulesPath with
  | none => cases h
  | some modulesPath =>
    cases h
    refine ⟨rfl, fun hmem ↦ ?_, (not_or.1 hslash).2, ?_⟩
    · simpa using List.mem_takeWhile_imp hmem
    · rw [Bool.or_eq_true, not_or, Bool.not_eq_true, Bool.not_eq_true] at hdots
      rw [ModuleFile.relPath_file, hasDotDot_append_slash, hasDotDot_append_slash, hdots.1, hdots.2]
      rfl

theorem status_of_pluginFile_eq_error {modulesPath : Option Bytes} {url : Bytes}
    {response : HttpResponse} (h : pluginFile modulesPath url = .error response) :
    response.status ≠ 200 := by
  unfold pluginFile at h
  dsimp only at h
  split_ifs at h
  · cases h
    exact nofun
  · cases h
    exact nofun
  · cases modulesPath <;> cases h
    exact nofun
  · cases h
    exact nofun

theorem status_of_moduleFile_eq_error {modulesPath : Option Bytes} {url : Bytes}
    {response : HttpResponse} (h : moduleFile modulesPath url = .error response) :
    response.status ≠ 200 := by
  unfold moduleFile at h
  dsimp only at h
  split_ifs at h
  · cases h
    exact nofun
  · cases h
    exact nofun
  · cases h
    exact nofun
  · cases h
    exact nofun
  · cases modulesPath <;> cases h
    exact nofun
  · cases h
    exact nofun

/-- A response with a content is that of a file. -/
theorem serveFile_eq_ok {fs : FileSystem Bytes} {maxSize : ℕ} {tooLarge path content : Bytes}
    (h : serveFile fs maxSize tooLarge path = ⟨200, content⟩) :
    fs.resolve path = some (.file content) := by
  unfold serveFile at h
  split at h
  · cases congrArg HttpResponse.status h
  · cases congrArg HttpResponse.status h
  · cases congrArg HttpResponse.status h
  · rename_i content' hresolve
    split_ifs at h
    · cases congrArg HttpResponse.status h
    · obtain rfl := congrArg HttpResponse.body h
      exact hresolve

/-- The names of the path of a file of a module. -/
theorem properNames_file {f : ModuleFile} (hslash : '/' ∉ f.moduleName) (hnil : f.moduleName ≠ []) :
    (∃ rest, properNames f.file.relPath = f.moduleName :: "files".toList :: rest) ↔
      f.moduleName ≠ ['.'] := by
  have hfiles : '/' ∉ "files".toList := by decide
  rw [ModuleFile.relPath_file, properNames, List.splitOn_append_cons_self_of_not_mem hslash,
    List.splitOn_append_cons_self_of_not_mem hfiles]
  constructor
  · rintro ⟨rest, hrest⟩
    have hmem : f.moduleName ∈ f.moduleName :: "files".toList :: rest := List.mem_cons_self
    rw [← hrest, List.mem_filter] at hmem
    exact (of_decide_eq_true hmem.2).2
  · intro hdot
    refine ⟨(f.filePath.splitOn '/').filter fun name ↦ name ≠ [] ∧ name ≠ ['.'], ?_⟩
    have hname : decide (f.moduleName ≠ [] ∧ f.moduleName ≠ ['.']) = true :=
      decide_eq_true ⟨hnil, hdot⟩
    rw [List.filter_cons, if_pos hname]
    rfl

/-! ### Certificates and requests -/

/-- The functions that keep certificates and signing requests. -/
inductive CertificateCall where
  | saveSigned (certPem : CString)
  | loadSigned
  | certExists
  | deleteSigned
  | saveCsr (csrPem : CString)
  | loadCsr
  | csrExists
  | deleteCsr

section Calls

variable {Key : Type}

/-- The content of a file that can be opened. -/
def Files.read (files : Files) (around : Surroundings) (path : CString) : Option (List UInt8) :=
  if around.opens path then files path else none

/-- `unlink`: a file that is there is removed if this is permitted. -/
def Files.unlink (files : Files) (permits : CString → Bool) (path : CString) : Option Files :=
  if (files path).isSome ∧ permits path then some (Function.update files path none) else none

theorem Files.unlink_apply_of_ne {files files' : Files} {permits : CString → Bool}
    {path path' : CString} (h : files.unlink permits path = some files') (hne : path' ≠ path) :
    files' path' = files path' := by
  unfold Files.unlink at h
  split_ifs at h
  obtain rfl := Option.some.inj h
  exact Function.update_of_ne hne _ _

/-- The path of a signed certificate in a buffer of `PUPPET_CA_MAX_PATH` bytes. -/
def signedPathBuffer (caDir certname : CString) : CString :=
  (buildPath (buildPath caDir (CString.ofString "signed"))
    (certname ++ CString.ofString ".pem")).truncate 4096

/-- The path of a signing request in a buffer of `PUPPET_CA_MAX_PATH` bytes. -/
def csrPathBuffer (caDir certname : CString) : CString :=
  (buildPath (buildPath caDir (CString.ofString "requests"))
    (certname ++ CString.ofString ".pem")).truncate 4096

/-- The refusal of a certname. -/
def Authority.refuseCertname (ctx : Authority Key) : Authority Key :=
  ctx.setError (CString.ofString "Invalid certname: contains unsafe characters")

/-- `puppet_ca_load_signed_cert`. -/
def loadSignedCert (around : Surroundings) (certname : CString) (ctx : Authority Key)
    (files : Files) : Option (List UInt8) × Authority Key :=
  if isValidCertname certname then
    let path := signedPath ctx.caDir certname
    match files.read around path with
    | some content => (some content, ctx)
    | none => (none, ctx.setError (CString.ofString "Failed to open certificate file " ++ path ++
        CString.ofString ": " ++ around.strerror))
  else (none, ctx.refuseCertname)

/-- `puppet_ca_cert_exists`. -/
def certExists (around : Surroundings) (certname : CString) (ctx : Authority Key)
    (files : Files) : Bool :=
  (files.read around (signedPath ctx.caDir certname)).isSome

/-- `puppet_ca_load_csr`. -/
def loadCsr (around : Surroundings) (certname : CString) (ctx : Authority Key)
    (files : Files) : Option (List UInt8) × Authority Key :=
  match files.read around (csrPathBuffer ctx.caDir certname) with
  | none => (none, ctx.setError (CString.ofString "CSR not found: " ++ certname))
  | some content =>
    if content = [] ∨ 65536 < content.length then
      (none, ctx.setError (CString.ofString "Invalid CSR file size"))
    else (some content, ctx)

/-- `puppet_ca_csr_exists`. -/
def csrExists (certname : CString) (ctx : Authority Key) (files : Files) : Bool :=
  isValidCertname certname && (files (csrPathBuffer ctx.caDir certname)).isSome

/-- `puppet_ca_delete_csr`. -/
def deleteCsr (around : Surroundings) (permits : CString → Bool) (certname : CString)
    (ctx : Authority Key) (files : Files) : Bool × Authority Key × Files :=
  if isValidCertname certname then
    match files.unlink permits (csrPathBuffer ctx.caDir certname) with
    | some files => (true, ctx, files)
    | none =>
      (false, ctx.setError (CString.ofString "Failed to delete CSR: " ++ around.strerror), files)
  else (false, ctx.refuseCertname, files)

/-- `puppet_ca_delete_signed_cert`. -/
def deleteSignedCert (around : Surroundings) (permits : CString → Bool) (certname : CString)
    (ctx : Authority Key) (files : Files) : Bool × Authority Key × Files :=
  match files.unlink permits (signedPathBuffer ctx.caDir certname) with
  | some files => (true, ctx, files)
  | none =>
    (false, ctx.setError (CString.ofString "Failed to delete certificate: " ++ around.strerror),
      files)

namespace CertificateCall

/-- The directory of the files of a call. -/
def directory : CertificateCall → Bytes
  | saveSigned _ | loadSigned | certExists | deleteSigned => "signed".toList
  | saveCsr _ | loadCsr | csrExists | deleteCsr => "requests".toList

/-- Is the certname checked? -/
def checks : CertificateCall → Bool
  | saveSigned _ | loadSigned | saveCsr _ | csrExists | deleteCsr => true
  | certExists | deleteSigned | loadCsr => false

/-- The path of the file of a certname. -/
def path (caDir certname : CString) : CertificateCall → CString
  | saveSigned _ | loadSigned | certExists => signedPath caDir certname
  | deleteSigned => signedPathBuffer caDir certname
  | saveCsr _ => csrPath caDir certname
  | loadCsr | csrExists | deleteCsr => csrPathBuffer caDir certname

/-- The path of the file that a call opens, if it opens one. -/
def openedPath (call : CertificateCall) (caDir certname : CString) : Option CString :=
  if call.checks → isValidCertname certname then some (call.path caDir certname) else none

/-- A call: what it answers, unless this is not looked at, what it reads, and the context and the
files after it. -/
def run (around : Surroundings) (permits : CString → Bool) (certname : CString)
    (ctx : Authority Key) (files : Files) :
    CertificateCall → (Option Bool × Option (List UInt8) × Authority Key) × Files
  | saveSigned certPem =>
    let r := saveSignedCert around certname certPem ctx files
    ((none, none, r.1), r.2)
  | loadSigned =>
    let r := loadSignedCert around certname ctx files
    ((r.1.isSome, r.1, r.2), files)
  | certExists => ((PuppetC.certExists around certname ctx files, none, ctx), files)
  | deleteSigned =>
    let r := deleteSignedCert around permits certname ctx files
    ((r.1, none, r.2.1), r.2.2)
  | saveCsr csrPem =>
    let r := PuppetC.saveCsr around certname csrPem ctx files
    ((r.1, none, r.2.1), r.2.2)
  | loadCsr =>
    let r := PuppetC.loadCsr around certname ctx files
    ((r.1.isSome, r.1, r.2), files)
  | csrExists => ((PuppetC.csrExists certname ctx files, none, ctx), files)
  | deleteCsr =>
    let r := PuppetC.deleteCsr around permits certname ctx files
    ((r.1, none, r.2.1), r.2.2)

variable (around : Surroundings) (permits : CString → Bool) (certname : CString)
  (ctx : Authority Key)

theorem openedPath_of_checks {call : CertificateCall} {caDir certname : CString}
    (hvalid : isValidCertname certname = true) :
    call.openedPath caDir certname = some (call.path caDir certname) :=
  if_pos fun _ ↦ hvalid

/-- A call changes no file but the one it opens. -/
theorem run_files (files : Files) (call : CertificateCall) {path : CString}
    (h : call.openedPath ctx.caDir certname ≠ some path) :
    (call.run around permits certname ctx files).2 path = files path := by
  have hne : isValidCertname certname = true → path ≠ call.path ctx.caDir certname := by
    rintro hvalid rfl
    exact h (openedPath_of_checks hvalid)
  cases call with
  | loadSigned | certExists | loadCsr | csrExists => rfl
  | saveSigned certPem =>
    change (saveSignedCert around certname certPem ctx files).2 path = _
    unfold saveSignedCert
    by_cases hvalid : isValidCertname certname = true
    · rw [if_pos hvalid]
      dsimp only
      split_ifs
      · exact Function.update_of_ne (hne hvalid) _ _
      · rfl
    · rw [if_neg hvalid]
  | saveCsr csrPem =>
    change (PuppetC.saveCsr around certname csrPem ctx files).2.2 path = _
    unfold PuppetC.saveCsr
    by_cases hvalid : isValidCertname certname = true
    · rw [if_pos hvalid]
      dsimp only
      split_ifs
      · exact Function.update_of_ne (hne hvalid) _ _
      · exact Function.update_of_ne (hne hvalid) _ _
      · rfl
      · rfl
    · rw [if_neg hvalid]
  | deleteSigned =>
    change (deleteSignedCert around permits certname ctx files).2.2 path = _
    unfold deleteSignedCert
    cases hunlink : files.unlink permits (signedPathBuffer ctx.caDir certname) with
    | none => rfl
    | some files' =>
      refine Files.unlink_apply_of_ne hunlink ?_
      rintro rfl
      exact h rfl
  | deleteCsr =>
    change (PuppetC.deleteCsr around permits certname ctx files).2.2 path = _
    unfold PuppetC.deleteCsr
    by_cases hvalid : isValidCertname certname = true
    · rw [if_pos hvalid]
      cases hunlink : files.unlink permits (csrPathBuffer ctx.caDir certname) with
      | none => rfl
      | some files' => exact Files.unlink_apply_of_ne hunlink (hne hvalid)
    · rw [if_neg hvalid]

/-- A call answers by the file that it opens. -/
theorem run_congr {files files' : Files} (call : CertificateCall)
    (h : ∀ path, call.openedPath ctx.caDir certname = some path → files path = files' path) :
    (call.run around permits certname ctx files).1 =
      (call.run around permits certname ctx files').1 := by
  have hpath : isValidCertname certname = true →
      files (call.path ctx.caDir certname) = files' (call.path ctx.caDir certname) :=
    fun hvalid ↦ h _ (openedPath_of_checks hvalid)
  cases call with
  | saveSigned certPem =>
    simp only [run, saveSignedCert]
    split_ifs <;> rfl
  | saveCsr csrPem =>
    simp only [run, PuppetC.saveCsr]
    split_ifs <;> rfl
  | certExists =>
    have hread := h _ rfl
    simp only [path] at hread
    simp only [run, PuppetC.certExists, Files.read, hread]
  | loadCsr =>
    have hread := h _ rfl
    simp only [path] at hread
    simp only [run, PuppetC.loadCsr, Files.read, hread]
  | deleteSigned =>
    have hread := h _ rfl
    simp only [path] at hread
    simp only [run, deleteSignedCert, Files.unlink, hread]
    split_ifs <;> rfl
  | loadSigned =>
    by_cases hvalid : isValidCertname certname = true
    · have hread := hpath hvalid
      simp only [path] at hread
      simp only [run, loadSignedCert, Files.read, hread]
    · simp only [run, loadSignedCert, hvalid, Bool.false_eq_true, if_false]
  | csrExists =>
    by_cases hvalid : isValidCertname certname = true
    · have hread := hpath hvalid
      simp only [path] at hread
      simp only [run, PuppetC.csrExists, hread]
    · simp only [run, PuppetC.csrExists, hvalid, Bool.false_and]
  | deleteCsr =>
    by_cases hvalid : isValidCertname certname = true
    · have hread := hpath hvalid
      simp only [path] at hread
      simp only [run, PuppetC.deleteCsr, Files.unlink, hread, hvalid, if_true]
      split_ifs <;> rfl
    · simp only [run, PuppetC.deleteCsr, hvalid, Bool.false_eq_true, if_false]

end CertificateCall

end Calls

/-! ### Certnames -/

/-- No two dots follow each other. -/
def NoTwoDots (bytes : List UInt8) : Prop := bytes.IsChain fun a b ↦ ¬(a = 46 ∧ b = 46)

theorem isValidCertname_iff (certname : CString) :
    isValidCertname certname = true ↔
      certname.bytes ≠ [] ∧ (∀ b ∈ certname.bytes, b ≠ 47 ∧ b ≠ 92 ∧ 32 ≤ b) ∧
        NoTwoDots certname.bytes := by
  have hdots : certname.bytes.tails.any ([46, 46].isPrefixOf ·) = false ↔
      NoTwoDots certname.bytes := by
    rw [NoTwoDots, List.isChain_iff_forall_rel_of_append_cons_cons, List.any_eq_false]
    constructor
    · rintro h a b l₁ l₂ hl ⟨rfl, rfl⟩
      refine h (46 :: 46 :: l₂) ((List.mem_tails _ _).2 (hl ▸ List.suffix_append _ _)) ?_
      exact List.isPrefixOf_iff_prefix.2 ⟨l₂, rfl⟩
    · intro h tail htail hprefix
      obtain ⟨l₂, rfl⟩ := List.isPrefixOf_iff_prefix.1 hprefix
      obtain ⟨l₁, hl⟩ := (List.mem_tails _ _).1 htail
      exact h hl.symm ⟨rfl, rfl⟩
  rw [isValidCertname, Bool.and_eq_true, Bool.and_eq_true, Bool.not_eq_true', hdots,
    decide_eq_true_iff, List.all_eq_true]
  simp only [Bool.and_eq_true, decide_eq_true_eq, and_assoc]

/-- The name of the file of a certname. -/
def pemName (certname : CString) : CString := certname ++ CString.ofString ".pem"

theorem pemName_bytes (certname : CString) :
    (pemName certname).bytes = certname.bytes ++ [46, 112, 101, 109] := rfl

/-- A certname is valid with more after it, unless two dots meet. -/
theorem isValidCertname_pemName {certname : CString} (hvalid : isValidCertname certname = true)
    (hdot : certname.bytes.getLast? ≠ some 46) : isValidCertname (pemName certname) = true := by
  rw [isValidCertname_iff] at hvalid ⊢
  obtain ⟨hne, hbytes, hdots⟩ := hvalid
  rw [pemName_bytes]
  refine ⟨List.append_ne_nil_of_left_ne_nil hne _,
    List.forall_mem_append.2 ⟨hbytes, by decide +kernel⟩, ?_⟩
  refine List.IsChain.append hdots (by decide) ?_
  rintro a ha b hb ⟨rfl, -⟩
  exact hdot ha

/-- A certname whose file name is cut to the file name of another one goes on with a dot after
it. -/
theorem eq_of_truncate_eq {k : ℕ} {certname certname' : CString}
    (hfits : certname.bytes.length + 4 < k ∨
      certname.bytes.length + 4 = k ∧ certname.bytes.getLast? = some 46)
    (hvalid : isValidCertname certname' = true)
    (h : (pemName certname').truncate (k + 1) = pemName certname) : certname' = certname := by
  have hbytes := congrArg CString.bytes h
  change ((pemName certname').bytes.take k) = (pemName certname).bytes at hbytes
  rw [pemName_bytes, pemName_bytes] at hbytes
  have hlength := congrArg List.length hbytes
  simp only [List.length_take, List.length_append, List.length_cons, List.length_nil] at hlength
  by_cases hle : certname'.bytes.length ≤ certname.bytes.length
  · rw [List.take_of_length_le (by simp; omega)] at hbytes
    exact CString.ext (List.append_cancel_right hbytes)
  · exfalso
    obtain ⟨-, hlast⟩ := hfits.resolve_left (by omega)
    have hdot : certname.bytes ++ [46] <+: certname.bytes ++ [46, 112, 101, 109] :=
      ⟨[112, 101, 109], List.append_assoc ..⟩
    have hcut : certname.bytes ++ [46, 112, 101, 109] <+: certname'.bytes ++ [46, 112, 101, 109] :=
      hbytes ▸ List.take_prefix _ _
    obtain ⟨rest, hrest⟩ := List.prefix_of_prefix_length_le (hdot.trans hcut)
      (List.prefix_append _ _) (by rw [List.length_append, List.length_singleton]; omega)
    have hdots := ((isValidCertname_iff certname').1 hvalid).2.2
    rw [NoTwoDots, ← hrest, List.append_assoc, List.isChain_append] at hdots
    exact hdots.2.2 46 hlast 46 rfl ⟨rfl, rfl⟩

namespace CertificateCall

/-- The length up to which the name of a file is not cut. -/
def room (caDir : CString) : CertificateCall → ℕ
  | saveSigned _ | loadSigned | certExists => 260
  | call => 4095 - (caDir.bytes.length + call.directory.length + 2)

/-- The path of the directory of a call, with a slash. -/
def directoryPath (call : CertificateCall) (caDir : CString) : List Char :=
  caDir.chars ++ '/' :: (call.directory ++ ['/'])

/-- The whole path of the file of a certname. -/
def wholePath (call : CertificateCall) (caDir certname : CString) : List Char :=
  call.directoryPath caDir ++ (pemName certname).chars

variable (call : CertificateCall) (caDir certname : CString)

theorem length_directoryPath :
    (call.directoryPath caDir).length = caDir.bytes.length + call.directory.length + 2 := by
  simp only [directoryPath, List.length_append, CString.length_chars, List.length_cons,
    List.length_nil]
  omega

theorem take_take_append {α : Type} (n : ℕ) (s t : List α) :
    (s.take n ++ t).take n = (s ++ t).take n := by
  rw [List.take_append, List.take_append, List.take_take, min_self, List.length_take]
  congr 2
  omega

theorem csrPath_eq : csrPath caDir certname = csrPathBuffer caDir certname := by
  refine CString.ext ?_
  simp only [csrPath, csrPathBuffer, requestsDir, buildPath, CString.append_bytes,
    CString.truncate_bytes]
  rw [List.append_assoc (List.take _ _), take_take_append, ← List.append_assoc]

theorem chars_buildPath (dir filename : CString) :
    (buildPath dir filename).chars = dir.chars ++ '/' :: filename.chars := by
  have hslash : (CString.ofString "/").chars = ['/'] := by decide
  rw [buildPath, CString.chars_append, CString.chars_append, hslash, List.append_assoc]
  rfl

theorem chars_signed : (CString.ofString "signed").chars = "signed".toList := by decide

theorem chars_requests : (CString.ofString "requests").chars = "requests".toList := by decide

theorem directoryPath_append (name : List Char) :
    call.directoryPath caDir ++ name = caDir.chars ++ '/' :: (call.directory ++ '/' :: name) := by
  rw [directoryPath, List.append_assoc, List.cons_append, List.append_assoc]
  rfl

theorem chars_signedPathBuffer :
    (signedPathBuffer caDir certname).chars =
      (deleteSigned.wholePath caDir certname).take 4095 := by
  rw [signedPathBuffer, CString.chars_truncate, chars_buildPath, chars_buildPath, chars_signed,
    wholePath, directoryPath_append, List.append_assoc]
  rfl

theorem chars_csrPathBuffer :
    (csrPathBuffer caDir certname).chars = (loadCsr.wholePath caDir certname).take 4095 := by
  rw [csrPathBuffer, CString.chars_truncate, chars_buildPath, chars_buildPath, chars_requests,
    wholePath, directoryPath_append, List.append_assoc]
  rfl

theorem chars_signedPath :
    (signedPath caDir certname).chars =
      loadSigned.directoryPath caDir ++ (pemName certname).chars.take 260 := by
  rw [signedPath, chars_buildPath, chars_buildPath, chars_signed, CString.chars_truncate,
    directoryPath_append, List.append_assoc]
  rfl

/-- The path of a file: what there is room for. -/
theorem chars_path :
    (call.path caDir certname).chars =
        call.directoryPath caDir ++ (pemName certname).chars.take (call.room caDir) ∨
      call.room caDir = 0 ∧
        (call.path caDir certname).chars.length ≤ (call.directoryPath caDir).length := by
  have hbuffer : ∀ (call : CertificateCall) (path : List Char),
      call.room caDir = 4095 - (call.directoryPath caDir).length →
      path = (call.wholePath caDir certname).take 4095 →
      path = call.directoryPath caDir ++ (pemName certname).chars.take (call.room caDir) ∨
        call.room caDir = 0 ∧ path.length ≤ (call.directoryPath caDir).length := by
    rintro call path hroom rfl
    rw [hroom]
    by_cases hle : (call.directoryPath caDir).length ≤ 4095
    · refine .inl ?_
      rw [wholePath, List.take_append, List.take_of_length_le hle]
    · refine .inr ⟨by omega, ?_⟩
      rw [List.length_take]
      omega
  have hroom : ∀ call : CertificateCall,
      4095 - (caDir.bytes.length + call.directory.length + 2) =
        4095 - (call.directoryPath caDir).length := by
    intro call
    rw [length_directoryPath]
  cases call with
  | saveSigned _ | loadSigned | certExists => exact .inl (chars_signedPath caDir certname)
  | deleteSigned => exact hbuffer _ _ (hroom _) (chars_signedPathBuffer caDir certname)
  | saveCsr csrPem =>
    refine hbuffer (saveCsr csrPem) _ (hroom _) ?_
    rw [path, csrPath_eq]
    exact chars_csrPathBuffer caDir certname
  | loadCsr | csrExists | deleteCsr =>
    exact hbuffer _ _ (hroom _) (chars_csrPathBuffer caDir certname)

theorem length_pemName : (pemName certname).chars.length = certname.bytes.length + 4 := by
  rw [CString.length_chars, pemName_bytes, List.length_append]
  rfl

/-- A path is whole just when there is room for the name. -/
theorem chars_path_eq_iff :
    (call.path caDir certname).chars = call.wholePath caDir certname ↔
      certname.bytes.length + 4 ≤ call.room caDir := by
  rcases call.chars_path caDir certname with hpath | ⟨hroom, hlength⟩
  · rw [hpath, wholePath, List.append_cancel_left_eq, List.take_eq_self_iff, length_pemName]
  · refine iff_of_false (fun h ↦ ?_) (by omega)
    rw [h, wholePath, List.length_append, length_pemName] at hlength
    omega

/-- The path of a certname for which there is room begins with the directory. -/
theorem chars_path_of_pos (hroom : 0 < call.room caDir) :
    (call.path caDir certname).chars =
      call.directoryPath caDir ++ (pemName certname).chars.take (call.room caDir) :=
  (call.chars_path caDir certname).resolve_right fun h ↦ absurd h.1 hroom.ne'

variable {call caDir certname}

theorem directory_eq (call : CertificateCall) :
    call.directory = "signed".toList ∨ call.directory = "requests".toList := by
  cases call <;> first | exact .inl rfl | exact .inr rfl

theorem slash_not_mem_directory (call : CertificateCall) : '/' ∉ call.directory := by
  rcases call.directory_eq with h | h <;> rw [h] <;> decide

theorem isProperName_directory (call : CertificateCall) : IsProperName call.directory := by
  rcases call.directory_eq with h | h <;> rw [h] <;> exact ⟨by decide, by decide, by decide⟩

/-- The file of a valid certname stands in the directory, under what there is room for of its
name. -/
theorem locateBelow_path (call : CertificateCall) (caDir : CString)
    (hvalid : isValidCertname certname = true) (hroom : 3 ≤ call.room caDir) :
    locateBelow caDir.chars (call.path caDir certname).chars =
      some [call.directory, (pemName certname).chars.take (call.room caDir)] := by
  obtain ⟨hne, hbytes, -⟩ := (isValidCertname_iff certname).1 hvalid
  have hslash : '/' ∉ (pemName certname).chars := by
    have hslash : '/' = (fun b : UInt8 ↦ Char.ofNat b.toNat) 47 := rfl
    rw [hslash, CString.chars, List.mem_map_of_injective CString.ofNat_toNat_injective,
      pemName_bytes, List.mem_append, not_or]
    exact ⟨fun h ↦ (hbytes 47 h).1 rfl, by decide⟩
  have hlength : 3 ≤ ((pemName certname).chars.take (call.room caDir)).length := by
    rw [List.length_take, length_pemName]
    omega
  have hproper : IsProperName ((pemName certname).chars.take (call.room caDir)) := by
    refine ⟨?_, ?_, ?_⟩ <;>
    · intro h
      rw [h] at hlength
      simp at hlength
  rw [chars_path_of_pos call caDir certname (by omega), directoryPath_append, locateBelow_append,
    locate, List.splitOn_append_cons_self_of_not_mem call.slash_not_mem_directory,
    List.splitOn_eq_singleton fun h ↦ hslash (List.mem_of_mem_take h), List.foldlM_cons,
    stepTo_of_isProperName call.isProperName_directory]
  exact (congrArg (· >>= pure) (stepTo_of_isProperName hproper _)).trans rfl

/-- The file that a call opens stands in the directory of the call, its path is whole, and no other
certname leads to it. -/
def Safe (call : CertificateCall) (caDir certname : CString) : Prop :=
  ∀ path, call.openedPath caDir certname = some path →
    (∃ names, locateBelow caDir.chars path.chars = some (call.directory :: names)) ∧
    path.chars = call.wholePath caDir certname ∧
    ∀ certname' path', certname' ≠ certname → call.openedPath caDir certname' = some path' →
      locateBelow caDir.chars path'.chars ≠ locateBelow caDir.chars path.chars

/-- The certname is checked, and if it is valid, there is room for the name of its file and for one
byte more, unless it ends with a dot. -/
def Fits (call : CertificateCall) (caDir certname : CString) : Prop :=
  call.checks = true ∧ (isValidCertname certname = true →
    certname.bytes.length + 4 < call.room caDir ∨
      certname.bytes.length + 4 = call.room caDir ∧ certname.bytes.getLast? = some 46)

/-- With no room left, what follows the name of a file is cut. -/
theorem chars_path_pemName (hroom : certname.bytes.length + 4 = call.room caDir) :
    (call.path caDir (pemName certname)).chars = (call.path caDir certname).chars := by
  have hpos : 0 < call.room caDir := by omega
  rw [chars_path_of_pos call caDir _ hpos, chars_path_of_pos call caDir _ hpos]
  congr 1
  rw [pemName, CString.chars_append, List.take_append_of_le_length, pemName]
  rw [length_pemName, hroom]

/-- With room for one byte more, a slash before a certname does not matter. -/
theorem locateBelow_path_slash (hroom : certname.bytes.length + 4 < call.room caDir) :
    locateBelow caDir.chars (call.path caDir (CString.ofString "/" ++ certname)).chars =
      locateBelow caDir.chars (call.path caDir certname).chars := by
  have hname : (pemName (CString.ofString "/" ++ certname)).chars =
      '/' :: (pemName certname).chars := by
    rw [pemName, pemName, CString.chars_append, CString.chars_append, CString.chars_append]
    rfl
  rw [chars_path_of_pos call caDir _ (by omega), chars_path_of_pos call caDir _ (by omega), hname,
    List.take_of_length_le (by rw [List.length_cons, length_pemName]; omega),
    List.take_of_length_le (by rw [length_pemName]; omega), directoryPath_append,
    directoryPath_append, locateBelow_append, locateBelow_append, locate_slash_slash]

theorem ne_of_length_ne {certname certname' : CString}
    (h : certname'.bytes.length ≠ certname.bytes.length) : certname' ≠ certname := by
  rintro rfl
  exact h rfl

theorem pemName_ne (certname : CString) : pemName certname ≠ certname := by
  refine ne_of_length_ne ?_
  rw [pemName_bytes, List.length_append]
  exact (Nat.lt_add_of_pos_right (by decide)).ne'

/-- A call that does not check the certname is never safe. -/
theorem not_safe_of_not_checks (hchecks : call.checks = false) : ¬call.Safe caDir certname := by
  intro h
  have hopened : ∀ certname, call.openedPath caDir certname = some (call.path caDir certname) :=
    fun certname ↦ if_pos (by simp [hchecks])
  obtain ⟨-, hwhole, hother⟩ := h _ (hopened certname)
  rw [chars_path_eq_iff] at hwhole
  rcases hwhole.lt_or_eq with hlt | heq
  · have hne : CString.ofString "/" ++ certname ≠ certname := by
      refine ne_of_length_ne ?_
      rw [CString.append_bytes, List.length_append]
      exact (Nat.lt_add_of_pos_left (by decide)).ne'
    exact hother _ _ hne (hopened _) (locateBelow_path_slash hlt)
  · exact hother _ _ (pemName_ne certname) (hopened _) (congrArg _ (chars_path_pemName heq))

/-- A call is safe just when its certname fits. -/
theorem safe_iff : call.Safe caDir certname ↔ call.Fits caDir certname := by
  cases hchecks : call.checks with
  | false =>
    refine iff_of_false (not_safe_of_not_checks hchecks) fun h ↦ ?_
    rw [Fits, hchecks] at h
    exact Bool.false_ne_true h.1
  | true =>
    have hopened : ∀ {certname path}, call.openedPath caDir certname = some path ↔
        isValidCertname certname = true ∧ call.path caDir certname = path := by
      intro certname path
      simp [openedPath, hchecks]
    by_cases hvalid : isValidCertname certname = true
    · constructor
      · intro h
        refine ⟨hchecks, fun _ ↦ ?_⟩
        obtain ⟨-, hwhole, hother⟩ := h _ (hopened.2 ⟨hvalid, rfl⟩)
        rw [chars_path_eq_iff] at hwhole
        rcases hwhole.lt_or_eq with hlt | heq
        · exact .inl hlt
        · refine .inr ⟨heq, ?_⟩
          by_contra hdot
          have hopened' := hopened.2 ⟨isValidCertname_pemName hvalid hdot, rfl⟩
          exact hother _ _ (pemName_ne certname) hopened' (congrArg _ (chars_path_pemName heq))
      · rintro ⟨-, hfits⟩ path hpath
        obtain ⟨-, rfl⟩ := hopened.1 hpath
        have hroom : certname.bytes.length + 4 ≤ call.room caDir := by
          rcases hfits hvalid with h | h <;> omega
        have hpos : 0 < certname.bytes.length :=
          List.length_pos_iff.2 ((isValidCertname_iff certname).1 hvalid).1
        have hlocate := locateBelow_path call caDir hvalid (by omega)
        refine ⟨⟨_, hlocate⟩, (call.chars_path_eq_iff caDir certname).2 hroom, ?_⟩
        intro certname' path' hne hpath' heq
        obtain ⟨hvalid', rfl⟩ := hopened.1 hpath'
        rw [hlocate, locateBelow_path call caDir hvalid' (by omega), Option.some_inj,
          List.cons_eq_cons, List.singleton_inj] at heq
        have hname : (pemName certname').truncate (call.room caDir + 1) = pemName certname := by
          refine CString.chars_injective ?_
          rw [CString.chars_truncate, Nat.add_sub_cancel, heq.2, List.take_of_length_le]
          rw [length_pemName]
          exact hroom
        exact hne (eq_of_truncate_eq (hfits hvalid) hvalid' hname)
    · refine iff_of_true (fun path hpath ↦ absurd (hopened.1 hpath).1 hvalid) ?_
      exact ⟨hchecks, fun h ↦ absurd h hvalid⟩

/-! ### Calls of many processes -/

/-- Does a call write or remove a file? -/
def writes : CertificateCall → Bool
  | saveSigned _ | deleteSigned | saveCsr _ | deleteCsr => true
  | loadSigned | certExists | loadCsr | csrExists => false

theorem files_of_not_writes {Key : Type} {ctx : Authority Key} {around : Surroundings}
    {permits : CString → Bool} {files : Files} (h : call.writes = false) :
    (call.run around permits certname ctx files).2 = files := by
  cases call <;> first | rfl | cases h

/-- Calls that check the certname find their files by their directories. -/
theorem path_of_checks (h : call.checks = true) : call.path caDir certname =
    if call.directory = "signed".toList then signedPath caDir certname
    else csrPathBuffer caDir certname := by
  cases call with
  | saveSigned _ | loadSigned => rfl
  | saveCsr csrPem => exact csrPath_eq caDir certname
  | csrExists | deleteCsr => rfl
  | certExists | deleteSigned | loadCsr => cases h

theorem path_isPrefix (call : CertificateCall) (caDir certname : CString) :
    (call.path caDir certname).chars <+: call.wholePath caDir certname := by
  cases call with
  | saveSigned _ | loadSigned | certExists =>
    rw [path, chars_signedPath]
    exact (List.prefix_append_right_inj _).2 (List.take_prefix _ _)
  | deleteSigned => exact chars_signedPathBuffer caDir certname ▸ List.take_prefix _ _
  | saveCsr csrPem =>
    rw [path, csrPath_eq, chars_csrPathBuffer]
    exact List.take_prefix _ _
  | loadCsr | csrExists | deleteCsr =>
    exact chars_csrPathBuffer caDir certname ▸ List.take_prefix _ _

/-- Calls that check the certname open different files, in different directories or for different
certnames, if one of the certnames fits. -/
theorem openedPath_ne {call' : CertificateCall} {certname' path : CString}
    (hfits : call.Fits caDir certname) (hpath : call.openedPath caDir certname = some path)
    (hchecks : call'.checks = true)
    (hne : call'.directory = call.directory → certname' ≠ certname) :
    call'.openedPath caDir certname' ≠ some path := by
  intro hpath'
  obtain ⟨-, hwhole, hother⟩ := safe_iff.2 hfits path hpath
  by_cases hdir : call'.directory = call.directory
  · have hsame : call.openedPath caDir certname' = call'.openedPath caDir certname' := by
      rw [openedPath, openedPath, hfits.1, hchecks, path_of_checks hfits.1, path_of_checks hchecks,
        hdir]
    exact hother certname' path (hne hdir) (hsame.trans hpath') rfl
  · have hbegins := path_isPrefix call' caDir certname'
    obtain ⟨-, rfl⟩ : _ ∧ call'.path caDir certname' = path := by
      simpa [openedPath, hchecks] using hpath'
    rw [hwhole, wholePath, wholePath, directoryPath_append, directoryPath_append,
      List.prefix_append_right_inj, List.cons_prefix_cons] at hbegins
    rcases call.directory_eq with h | h <;> rcases call'.directory_eq with h' | h' <;>
      rw [h, h'] at hdir hbegins
    · exact hdir rfl
    · exact absurd (List.cons_prefix_cons.1 hbegins.2).1 (by decide)
    · exact absurd (List.cons_prefix_cons.1 hbegins.2).1 (by decide)
    · exact hdir rfl

end CertificateCall

/-- A call that a process makes. -/
structure StoreCall (Key : Type) where
  call : CertificateCall
  certname : CString
  ctx : Authority Key
  around : Surroundings
  permits : CString → Bool

/-- What a call answers, and the files after it. -/
def StoreCall.run {Key : Type} (c : StoreCall Key) (files : Files) :
    (Option Bool × Option (List UInt8) × Authority Key) × Files :=
  c.call.run c.around c.permits c.certname c.ctx files

/-- What makes the server open a file: the URL of a file of a module or of a plugin, or a
certname. -/
inductive FileAccess where
  | moduleContent (url : Bytes)
  | pluginContent (url : Bytes)
  | certificate (call : CertificateCall) (certname : CString)

namespace FileAccess

/-- The file that is opened stands in the directory of its kind, its path is whole, and no other
certname leads to it. -/
def Safe (modulesPath : Option Bytes) (caDir : CString) : FileAccess → Prop
  | moduleContent url => ∀ f, moduleFile modulesPath url = .ok f →
    (∃ rest, locateBelow f.modulesPath f.file.openedPath =
      some (f.moduleName :: "files".toList :: rest)) ∧ f.file.openedPath = f.file.path
  | pluginContent url => ∀ f, pluginFile modulesPath url = .ok f →
    (∃ moduleName rest, locateBelow f.modulesPath f.openedPath =
      some (moduleName :: "lib".toList :: rest)) ∧ f.openedPath = f.path
  | certificate call certname => call.Safe caDir certname

/-- The module of a file is not called `.`, the path of a plugin goes through `lib`, no path is
longer than its buffer, and a certname fits. -/
def Fits (modulesPath : Option Bytes) (caDir : CString) : FileAccess → Prop
  | moduleContent url => ∀ f, moduleFile modulesPath url = .ok f →
    f.moduleName ≠ ['.'] ∧ f.file.path.length < 4096
  | pluginContent url => ∀ f, pluginFile modulesPath url = .ok f →
    (∃ moduleName rest, properNames f.relPath = moduleName :: "lib".toList :: rest) ∧
      f.path.length < 4096
  | certificate call certname => call.Fits caDir certname

/-- An access is safe just when its URL or certname fits. -/
theorem safe_iff_fits (modulesPath : Option Bytes) (caDir : CString) (a : FileAccess) :
    a.Safe modulesPath caDir ↔ a.Fits modulesPath caDir := by
  cases a with
  | moduleContent url =>
    refine forall₂_congr fun f hf ↦ ?_
    obtain ⟨-, hslash, hnil, hdots⟩ := moduleFile_eq_ok hf
    rw [← properNames_file hslash hnil, ← f.file.openedPath_eq_iff]
    refine and_congr_left fun hwhole ↦ ?_
    have hlocate := RequestedFile.locateBelow_openedPath hdots hwhole
    change (∃ rest, locateBelow f.file.modulesPath _ = _) ↔ _
    simp only [hlocate, Option.some_inj]
  | pluginContent url =>
    refine forall₂_congr fun f hf ↦ ?_
    rw [← f.openedPath_eq_iff]
    refine and_congr_left fun hwhole ↦ ?_
    have hlocate := RequestedFile.locateBelow_openedPath (pluginFile_eq_ok hf).2 hwhole
    simp only [hlocate, Option.some_inj]
  | certificate call certname => exact CertificateCall.safe_iff

section Served

variable {fs : FileSystem Bytes} {modulesPath url content : Bytes} {caDir : CString}
  {n : FileNode Bytes} {above : List (FileNode Bytes)}

/-- What is served of a safe URL of a file of a module stands below the `files` directory of the
module. -/
theorem moduleContent_served (hbase : fs.resolveStack modulesPath = some (n :: above))
    (hsafe : (moduleContent url).Safe (some modulesPath) caDir)
    (hserved : handleFileContent fs (some modulesPath) url = ⟨200, content⟩) :
    ∃ moduleName rest, n.at? (moduleName :: "files".toList :: rest) = some (.file content) := by
  unfold handleFileContent at hserved
  cases hfile : moduleFile (some modulesPath) url with
  | error response =>
    rw [hfile] at hserved
    exact absurd (congrArg HttpResponse.status hserved) (status_of_moduleFile_eq_error hfile)
  | ok f =>
    rw [hfile] at hserved
    obtain ⟨⟨rest, hlocate⟩, -⟩ := hsafe f hfile
    rw [Option.some.inj (moduleFile_eq_ok hfile).1] at hbase
    exact ⟨_, rest, FileSystem.resolve_locate hbase hlocate (serveFile_eq_ok hserved)⟩

/-- What is served of a safe URL of a plugin stands below the `lib` directory of a module. -/
theorem pluginContent_served (hbase : fs.resolveStack modulesPath = some (n :: above))
    (hsafe : (pluginContent url).Safe (some modulesPath) caDir)
    (hserved : handlePluginContent fs (some modulesPath) url = ⟨200, content⟩) :
    ∃ moduleName rest, n.at? (moduleName :: "lib".toList :: rest) = some (.file content) := by
  rw [handlePluginContent_eq] at hserved
  cases hfile : pluginFile (some modulesPath) url with
  | error response =>
    rw [hfile] at hserved
    exact absurd (congrArg HttpResponse.status hserved) (status_of_pluginFile_eq_error hfile)
  | ok f =>
    rw [hfile] at hserved
    obtain ⟨⟨moduleName, rest, hlocate⟩, -⟩ := hsafe f hfile
    rw [Option.some.inj (pluginFile_eq_ok hfile).1] at hbase
    exact ⟨moduleName, rest, FileSystem.resolve_locate hbase hlocate (serveFile_eq_ok hserved)⟩

end Served

/-- The URL of a plugin that names a manifest. -/
theorem not_safe_manifest :
    ¬ (pluginContent "/puppet/v3/file_content/plugins/ntp/manifests/init.pp".toList).Safe
        (some "/m".toList) (CString.ofString "/ca") := by
  intro h
  obtain ⟨⟨moduleName, rest, hlocate⟩, -⟩ :=
    h ⟨"/m".toList, "ntp/manifests/init.pp".toList⟩ rfl
  have hmanifest : locateBelow "/m".toList
      (RequestedFile.mk "/m".toList "ntp/manifests/init.pp".toList).openedPath =
        some ["ntp".toList, "manifests".toList, "init.pp".toList] := by
    decide +kernel
  rw [hmanifest, Option.some_inj, List.cons_eq_cons, List.cons_eq_cons] at hlocate
  exact absurd hlocate.2.1 (by decide)

end FileAccess

end PuppetC
