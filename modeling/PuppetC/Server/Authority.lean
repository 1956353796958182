import PuppetC.Server.Autosign
import Mathlib.Logic.Function.Basic
import Mathlib.Algebra.Group.Int.Defs
import Mathlib.Algebra.Group.Nat.Defs

/-!
# The certificate authority

A certificate authority signs the certificate requests of the nodes. Its context
(`puppet_ca_ctx_t`) holds the directory, the certificate and the key of the authority and the next
serial number; its directory holds the signed certificates, the pending requests and the serial
number.

OpenSSL is outside the program. `OpenSsl` holds what it reads from the text of a request and the
text it writes for a certificate; a request that was read carries its public key and whether its
signature verifies. What the operating system and the libraries answer on the way is in
`Surroundings`.

## Main definitions

* `Authority`, `Certificate`, `SigningRequest`, `Surroundings`.
* `isValidCertname`, `textByNid`.
* `getNextSerial`, `saveSignedCert`, `saveCsr`.
* `checkCsr`, `issueCertificate`: the two halves of `puppet_ca_sign_csr`; `signCsr` is the whole.

## Main results

* `checkCsr_eq_ok_iff`: the requests that pass the checks.
* `signCsr_eq_some_iff`: the requests that are signed, and the certificates they get.
-/

namespace PuppetC

/-! ### Names and certificates -/

/-- The object identifiers of the entries of a name: `NID_commonName` or another. -/
inductive NameKind where
  | commonName
  | other (nid : ℕ)
  deriving DecidableEq

/-- An entry of an X.509 name. -/
structure NameEntry where
  kind : NameKind
  value : List UInt8
  deriving DecidableEq

/-- The common names of a subject. -/
def commonNames (subject : List NameEntry) : List (List UInt8) :=
  (subject.filter (·.kind = .commonName)).map (·.value)

/-- `X509_NAME_get_text_by_NID` with a buffer of the given size: the start of the first entry of
the kind, or none when there is no such entry. -/
def textByNid (subject : List NameEntry) (kind : NameKind) (size : ℕ) : Option (List UInt8) :=
  (subject.find? (·.kind = kind)).map fun entry ↦ entry.value.take (size - 1)

/-- A certificate. -/
structure Certificate (Key : Type) where
  serial : ℤ
  subject : List NameEntry
  issuer : List NameEntry
  publicKey : Key
  signedBy : Key
  deriving DecidableEq

/-- A certificate signing request, as OpenSSL reads it. -/
structure SigningRequest (Key : Type) where
  subject : List NameEntry
  publicKey : Option Key
  verified : Bool
  deriving DecidableEq

/-- What OpenSSL reads from the text of a request, and the text it writes for a certificate. -/
structure OpenSsl (Key : Type) where
  readRequest : CString → Option (SigningRequest Key)
  writeCertificate : Certificate Key → CString
  writeCertificate_ne_nil : ∀ cert, (writeCertificate cert).bytes ≠ []

/-! ### Files and other surroundings -/

/-- The contents of the files, by path. -/
abbrev Files := CString → Option (List UInt8)

/-- What has to be provided by the libraries on the way to a certificate. -/
inductive Need where
  | csrInfo
  | requestBuffer
  | newCertificate
  | signature
  | certificateBuffer
  | certificateText
  | textCopy
  deriving DecidableEq

/-- What the surroundings answer to the handling of one request. The failure of a write need not
be reported to the call that makes it: the text may be lost when the file is closed. -/
structure Surroundings extends AutosignAnswers where
  provides : Need → Bool
  directoryReady : CString → Bool
  opens : CString → Bool
  writes : CString → Bool
  reportsWrite : CString → Bool
  strerror : CString

/-- A file that could be opened for writing was emptied; its text gets there when the write
succeeds too. -/
def Files.write (files : Files) (around : Surroundings) (path text : CString) : Files :=
  Function.update files path (some (if around.writes path then text.bytes else []))

/-! ### The context of the authority -/

/-- `puppet_ca_ctx_t`. -/
structure Authority (Key : Type) where
  caDir : CString
  caCert : Option (Certificate Key)
  caKey : Option Key
  serialNumber : ℤ
  lastError : CString
  deriving DecidableEq

variable {Key : Type}

/-- The error of a context, in a buffer of `PUPPET_CA_MAX_ERROR` bytes. -/
def Authority.setError (ctx : Authority Key) (message : CString) : Authority Key :=
  { ctx with lastError := message.truncate 256 }

/-- `build_path`. -/
def buildPath (dir filename : CString) : CString :=
  dir ++ CString.ofString "/" ++ filename

/-- The file of the serial number. -/
def serialPath (caDir : CString) : CString :=
  buildPath caDir (CString.ofString "serial")

/-- The file of a signed certificate; its name is cut to a buffer of `PUPPET_CA_MAX_CERTNAME + 5`
bytes. -/
def signedPath (caDir certname : CString) : CString :=
  buildPath (buildPath caDir (CString.ofString "signed"))
    ((certname ++ CString.ofString ".pem").truncate 261)

/-- The directory of the pending requests, in a buffer of `PUPPET_CA_MAX_PATH` bytes. -/
def requestsDir (caDir : CString) : CString :=
  (buildPath caDir (CString.ofString "requests")).truncate 4096

/-- The file of a pending request. -/
def csrPath (caDir certname : CString) : CString :=
  (buildPath (requestsDir caDir) (certname ++ CString.ofString ".pem")).truncate 4096

/-- `is_valid_certname`. -/
def isValidCertname (certname : CString) : Bool :=
  certname.bytes ≠ [] && certname.bytes.all (fun b ↦ b ≠ 47 && b ≠ 92 && 32 ≤ b) &&
    !certname.bytes.tails.any ([46, 46].isPrefixOf ·)

/-- The increment of a `long`. -/
def succLong (n : ℤ) : ℤ :=
  (n + 1).bmod (2 ^ 64)

/-- `puppet_ca_save_serial`. -/
def saveSerial (around : Surroundings) (ctx : Authority Key) (files : Files) :
    Authority Key × Files :=
  let path := serialPath ctx.caDir
  if around.opens path then
    (ctx, files.write around path (CString.ofString (toString ctx.serialNumber ++ "\n")))
  else (ctx.setError (CString.ofString "Failed to create serial file: " ++ around.strerror), files)

/-- `puppet_ca_get_next_serial`. Whether the number could be saved is not looked at. -/
def getNextSerial (around : Surroundings) (ctx : Authority Key) (files : Files) :
    ℤ × Authority Key × Files :=
  (ctx.serialNumber,
    saveSerial around { ctx with serialNumber := succLong ctx.serialNumber } files)

/-- `puppet_ca_save_signed_cert`. -/
def saveSignedCert (around : Surroundings) (certname certPem : CString) (ctx : Authority Key)
    (files : Files) : Authority Key × Files :=
  if isValidCertname certname then
    let path := signedPath ctx.caDir certname
    if around.opens path then (ctx, files.write around path certPem)
    else
      (ctx.setError (CString.ofString "Failed to create certificate file: " ++ around.strerror),
        files)
  else (ctx.setError (CString.ofString "Invalid certname: contains unsafe characters"), files)

/-- `puppet_ca_save_csr`. -/
def saveCsr (around : Surroundings) (certname csrPem : CString) (ctx : Authority Key)
    (files : Files) : Bool × Authority Key × Files :=
  if isValidCertname certname then
    let path := csrPath ctx.caDir certname
    if around.directoryReady (requestsDir ctx.caDir) then
      if around.opens path then
        let files := files.write around path csrPem
        if around.writes path || !around.reportsWrite path then (true, ctx, files)
        else
          (false,
            ctx.setError (CString.ofString "Failed to write CSR file: " ++ around.strerror), files)
      else
        (false,
          ctx.setError (CString.ofString "Failed to create CSR file: " ++ around.strerror), files)
    else
      (false,
        ctx.setError (CString.ofString "Failed to create requests directory: " ++ around.strerror),
        files)
  else
    (false, ctx.setError (CString.ofString "Invalid certname: contains unsafe characters"), files)

/-! ### Signing -/

/-- What `puppet_ca_sign_csr` works with once a request passed its checks. -/
structure CheckedRequest (Key : Type) where
  caCert : Certificate Key
  caKey : Key
  subject : List NameEntry
  publicKey : Key
  deriving DecidableEq

/-- The checks of `puppet_ca_sign_csr`. The subject is compared with the certname through the
first common name, cut to `PUPPET_CA_MAX_CERTNAME - 1` bytes and read up to a NUL. -/
def checkCsr (ssl : OpenSsl Key) (around : Surroundings) (ctx : Authority Key)
    (csrPem certname : CString) : Except CString (CheckedRequest Key) :=
  match ctx.caCert, ctx.caKey with
  | some caCert, some caKey =>
    if around.provides .requestBuffer then
      match ssl.readRequest csrPem with
      | none => .error (CString.ofString "Failed to parse CSR")
      | some req => match req.publicKey with
        | none => .error (CString.ofString "Failed to extract public key from CSR")
        | some key =>
          if req.verified then
            match textByNid req.subject .commonName 256 with
            | none | some [] => .error (CString.ofString "CSR has no Common Name")
            | some text =>
              if CString.ofBuffer text = certname then .ok ⟨caCert, caKey, req.subject, key⟩
              else
                .error (CString.ofString "CSR Common Name '" ++ CString.ofBuffer text ++
                  CString.ofString "' does not match requested certname '" ++ certname ++
                  CString.ofString "'")
          else .error (CString.ofString "CSR signature verification failed")
    else .error (CString.ofString "Failed to create BIO for CSR")
  | _, _ => .error (CString.ofString "CA not initialized (no certificate or key)")

/-- The certificate of a request that passed the checks. -/
def CheckedRequest.certificate (checked : CheckedRequest Key) (serial : ℤ) : Certificate Key where
  serial := serial
  subject := checked.subject
  issuer := checked.caCert.subject
  publicKey := checked.publicKey
  signedBy := checked.caKey

/-- The second half of `puppet_ca_sign_csr`: the serial number, the signature, the text of the
certificate and its file. Whether the file could be written is not looked at. -/
def issueCertificate (ssl : OpenSsl Key) (around : Surroundings) (certname : CString)
    (checked : CheckedRequest Key) (ctx : Authority Key) (files : Files) :
    Option (Certificate Key) × Authority Key × Files :=
  if around.provides .newCertificate then
    let (serial, ctx, files) := getNextSerial around ctx files
    let refuse message := (none, ctx.setError (CString.ofString message), files)
    if serial < 0 then refuse "Failed to get next serial number"
    else
      let cert := checked.certificate serial
      if around.provides .signature then
        if around.provides .certificateBuffer then
          if around.provides .certificateText then
            if around.provides .textCopy then
              (some cert, saveSignedCert around certname (ssl.writeCertificate cert) ctx files)
            else refuse "Failed to allocate memory for signed certificate"
          else refuse "Failed to write certificate to PEM"
        else refuse "Failed to create BIO for certificate"
      else refuse "Failed to sign certificate"
  else (none, ctx.setError (CString.ofString "Failed to create X509 certificate"), files)

/-- `puppet_ca_sign_csr`. -/
def signCsr (ssl : OpenSsl Key) (around : Surroundings) (csrPem certname : CString)
    (ctx : Authority Key) (files : Files) : Option (Certificate Key) × Authority Key × Files :=
  match checkCsr ssl around ctx csrPem certname with
  | .error message => (none, ctx.setError message, files)
  | .ok checked => issueCertificate ssl around certname checked ctx files

variable {ssl : OpenSsl Key} {around : Surroundings} {ctx : Authority Key} {files : Files}
variable {csrPem certname : CString}

/-- The requests that pass the checks. -/
theorem checkCsr_eq_ok_iff {checked : CheckedRequest Key} :
    checkCsr ssl around ctx csrPem certname = .ok checked ↔
      ctx.caCert = some checked.caCert ∧ ctx.caKey = some checked.caKey ∧
        around.provides .requestBuffer ∧ ∃ req, ssl.readRequest csrPem = some req ∧
          req.publicKey = some checked.publicKey ∧ req.verified ∧ req.subject = checked.subject ∧
            ∃ text, textByNid req.subject .commonName 256 = some text ∧ text ≠ [] ∧
              CString.ofBuffer text = certname := by
  constructor
  · intro h
    rw [checkCsr] at h
    split at h <;> try contradiction
    rename_i caCert caKey hcert hkey
    split_ifs at h with hbuffer
    split at h <;> try contradiction
    rename_i req hread
    split at h <;> try contradiction
    rename_i key hpublic
    split_ifs at h with hverified
    split at h <;> try contradiction
    rename_i text hnonempty htext
    split_ifs at h with hname
    obtain rfl := Except.ok.inj h
    exact ⟨hcert, hkey, hbuffer, req, hread, hpublic, hverified, rfl, text, htext,
      hnonempty, hname⟩
  · rintro ⟨hcert, hkey, hbuffer, req, hread, hpublic, hverified, hsubject, text, htext, hnonempty,
      hname⟩
    obtain ⟨caCert, caKey, subject, publicKey⟩ := checked
    obtain ⟨b, text, rfl⟩ := List.exists_cons_of_ne_nil hnonempty
    subst hsubject
    simp [checkCsr, hcert, hkey, hbuffer, hread, hpublic, hverified, htext, hname]

/-- The libraries provide all that the second half of the signing needs. -/
def Surroundings.issues (around : Surroundings) : Bool :=
  [Need.newCertificate, .signature, .certificateBuffer, .certificateText, .textCopy].all
    around.provides

/-- The state after the serial number of a certificate was taken. -/
def afterSerial (around : Surroundings) (ctx : Authority Key) (files : Files) :
    Authority Key × Files :=
  saveSerial around { ctx with serialNumber := succLong ctx.serialNumber } files

variable {checked : CheckedRequest Key} {cert : Certificate Key}

/-- A checked request is signed when the libraries provide what is needed and the serial number is
not negative. -/
theorem issueCertificate_of_issues (hissues : around.issues) (hserial : 0 ≤ ctx.serialNumber) :
    issueCertificate ssl around certname checked ctx files =
      (some (checked.certificate ctx.serialNumber),
        saveSignedCert around certname (ssl.writeCertificate (checked.certificate ctx.serialNumber))
          (afterSerial around ctx files).1 (afterSerial around ctx files).2) := by
  simp only [Surroundings.issues, List.all_cons, List.all_nil, Bool.and_true, Bool.and_eq_true]
    at hissues
  simp only [issueCertificate, getNextSerial, hissues, if_true, if_neg (Int.not_lt.2 hserial),
    afterSerial]

/-- A checked request is not signed otherwise. -/
theorem issueCertificate_fst_eq_none (h : ¬(around.issues ∧ 0 ≤ ctx.serialNumber)) :
    (issueCertificate ssl around certname checked ctx files).1 = none := by
  by_cases hneg : ctx.serialNumber < 0
  · simp only [issueCertificate, getNextSerial, hneg, if_true]
    split_ifs <;> rfl
  · have hissues : ¬around.issues := fun hissues ↦ h ⟨hissues, Int.not_lt.1 hneg⟩
    simp only [issueCertificate, getNextSerial, hneg, if_false]
    split_ifs <;> simp_all [Surroundings.issues]

/-- The requests that are signed, and the certificates they get. -/
theorem signCsr_eq_some_iff :
    (signCsr ssl around csrPem certname ctx files).1 = some cert ↔
      ∃ checked, checkCsr ssl around ctx csrPem certname = .ok checked ∧ around.issues ∧
        0 ≤ ctx.serialNumber ∧ checked.certificate ctx.serialNumber = cert := by
  rw [signCsr]
  cases checkCsr ssl around ctx csrPem certname with
  | error message => simp
  | ok checked =>
    by_cases h : around.issues ∧ 0 ≤ ctx.serialNumber
    · simp [issueCertificate_of_issues h.1 h.2, h.1, h.2]
    · simpa [issueCertificate_fst_eq_none h] using fun hissues hserial ↦ (h ⟨hissues, hserial⟩).elim

/-- The two files of the authority that a signature writes are different. -/
theorem signedPath_ne_serialPath (caDir certname : CString) :
    signedPath caDir certname ≠ serialPath caDir := by
  intro h
  have hbytes : caDir.bytes ++ _ ++ _ ++ _ ++ _ = caDir.bytes ++ _ ++ _ := congrArg CString.bytes h
  simp only [List.append_assoc, List.append_cancel_left_eq] at hbytes
  have hsigned : (CString.ofString "signed").bytes = [115, 105, 103, 110, 101, 100] := by decide
  have hserial : (CString.ofString "serial").bytes = [115, 101, 114, 105, 97, 108] := by decide
  rw [hsigned, hserial] at hbytes
  simp at hbytes

/-- A request can be saved: its name is usable, and its file can be opened and written as far as
the call notices. -/
structure CanSaveCsr (around : Surroundings) (ctx : Authority Key) (certname : CString) : Prop where
  valid : isValidCertname certname
  directory : around.directoryReady (requestsDir ctx.caDir)
  opens : around.opens (csrPath ctx.caDir certname)
  writes : around.writes (csrPath ctx.caDir certname) ∨
    ¬around.reportsWrite (csrPath ctx.caDir certname)

theorem saveCsr_of_canSaveCsr (h : CanSaveCsr around ctx certname) :
    saveCsr around certname csrPem ctx files =
      (true, ctx, files.write around (csrPath ctx.caDir certname) csrPem) := by
  have hwrites := h.writes
  simp only [saveCsr, h.valid, h.directory, h.opens, if_true]
  exact if_pos (by simpa using hwrites)

theorem saveCsr_fst_iff (csrPem : CString) (files : Files) :
    (saveCsr around certname csrPem ctx files).1 ↔ CanSaveCsr around ctx certname := by
  refine ⟨fun h ↦ ?_, fun h ↦ by rw [saveCsr_of_canSaveCsr h]⟩
  simp only [saveCsr] at h
  split_ifs at h with hvalid hdir hopens hwrites
  exact ⟨hvalid, hdir, hopens, by simpa using hwrites⟩

/-- The file of a certificate after it was saved. -/
theorem saveSignedCert_snd {text : CString} :
    (saveSignedCert around certname text ctx files).2 =
      if isValidCertname certname ∧ around.opens (signedPath ctx.caDir certname) then
        files.write around (signedPath ctx.caDir certname) text
      else files := by
  rw [saveSignedCert]
  split_ifs <;> simp_all

theorem saveSignedCert_caDir {text : CString} :
    (saveSignedCert around certname text ctx files).1.caDir = ctx.caDir := by
  simp only [saveSignedCert]
  split_ifs <;> rfl

theorem afterSerial_caDir : (afterSerial around ctx files).1.caDir = ctx.caDir := by
  simp only [afterSerial, saveSerial]
  split_ifs <;> rfl

/-- Taking a serial number leaves the signed certificates as they are. -/
theorem afterSerial_snd_signedPath :
    (afterSerial around ctx files).2 (signedPath ctx.caDir certname) =
      files (signedPath ctx.caDir certname) := by
  simp only [afterSerial, saveSerial]
  split_ifs
  · exact Function.update_of_ne (signedPath_ne_serialPath _ _) _ _
  · rfl

end PuppetC
