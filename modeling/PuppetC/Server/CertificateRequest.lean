import PuppetC.Server.Authority
import PuppetC.Support.StepSystem

/-!
# Certificate requests

`handle_certificate_request` answers the request of a node for a certificate: it asks the policy
for automatic signing, and signs the request or keeps it for an administrator.

A request should get a certificate only when the policy accepts its name, for that name only, and
with a copy in the directory of signed certificates; any other request that is in order should be
kept. The handler departs from this in these ways:

* without a configuration (`autosign_config` is `NULL`) it signs every request without asking;
* only the first common name of the subject is compared with the name, cut to 255 bytes and up to
  a NUL, while the certificate gets the whole subject;
* it does not see that the copy could not be written.

## Main definitions

* `handleCertificateRequest`, `certificateServer`: the handler, and the server that answers
  requests one after the other.
* `Server.Obeys`: what the answer to one request should be.
* `Server.Sound`: the condition on the server and the request under which it is.

## Main results

* `Server.obeys_iff_sound`: for one request, this is the exact condition.
* `obeys_along_iff`: every answer of a run is as it should be exactly when every request of the
  run meets the condition.
-/

namespace PuppetC

/-- The state of the server that requests for certificates read and change: `ca_ctx`,
`autosign_config` and the files. -/
structure Server (Key : Type) where
  authority : Option (Authority Key)
  autosign : Option AutosignConfig
  files : Files

/-- A request for a certificate, with what the surroundings answer while it is handled. -/
structure CertificateRequest where
  certname : CString
  csrPem : Option CString
  around : Surroundings

/-- The answers to a request: `send_error`, or a certificate with status 200. -/
inductive Response (Key : Type) where
  | error (status : ℕ) (message : CString)
  | certificate (cert : Certificate Key)
  deriving DecidableEq

variable {Key : Type}

/-! ### The handler -/

/-- The request is signed. -/
def signRequest (ssl : OpenSsl Key) (server : Server Key) (req : CertificateRequest)
    (ctx : Authority Key) (csrPem : CString) : Response Key × Server Key :=
  let (cert, ctx, files) := signCsr ssl req.around csrPem req.certname ctx server.files
  let server := { server with authority := some ctx, files }
  match cert with
  | some cert => (.certificate cert, server)
  | none => (.error 500 ctx.lastError, server)

/-- The request is kept for an administrator. -/
def keepRequest (server : Server Key) (req : CertificateRequest) (ctx : Authority Key)
    (csrPem : CString) : Response Key × Server Key :=
  let (saved, ctx, files) := saveCsr req.around req.certname csrPem ctx server.files
  let server := { server with authority := some ctx, files }
  if saved then
    (.error 202 (CString.ofString "Certificate request saved. Awaiting manual approval."), server)
  else (.error 500 (CString.ofString "Failed to save certificate request"), server)

/-- `handle_certificate_request`. -/
def handleCertificateRequest (ssl : OpenSsl Key) (server : Server Key) (req : CertificateRequest) :
    Response Key × Server Key :=
  match server.authority, req.csrPem with
  | none, _ => (.error 503 (CString.ofString "CA not initialized"), server)
  | some _, none => (.error 400 (CString.ofString "Missing CSR in request body"), server)
  | some ctx, some csrPem =>
    if csrPem.bytes = [] then
      (.error 400 (CString.ofString "Missing CSR in request body"), server)
    else if req.certname.bytes = [] then
      (.error 400 (CString.ofString "Missing certname"), server)
    else match server.autosign with
      | none => signRequest ssl server req ctx csrPem
      | some config =>
        if req.around.provides .csrInfo then
          if shouldSign config req.around.toAutosignAnswers req.certname then
            signRequest ssl server req ctx csrPem
          else keepRequest server req ctx csrPem
        else (.error 500 (CString.ofString "Failed to create CSR info"), server)

/-- The server, answering requests for certificates. -/
def certificateServer (ssl : OpenSsl Key) : StepSystem (Server Key) CertificateRequest where
  step server req := some (handleCertificateRequest ssl server req).2

/-! ### What the answers should be -/

/-- A request that is in order: a usable name, and a request that OpenSSL reads, with a key, a
valid signature and this name as its common name. -/
def CertificateRequest.WellFormed (ssl : OpenSsl Key) (req : CertificateRequest) : Prop :=
  isValidCertname req.certname ∧ ∃ csrPem csr, req.csrPem = some csrPem ∧ csrPem.bytes ≠ [] ∧
    ssl.readRequest csrPem = some csr ∧ csr.publicKey.isSome ∧ csr.verified ∧
      commonNames csr.subject ≠ [] ∧ ∀ cn ∈ commonNames csr.subject, cn = req.certname.bytes

/-- The policy accepts the name. -/
def Server.Accepts (server : Server Key) (req : CertificateRequest) : Prop :=
  ∃ config, server.autosign = some config ∧
    shouldSign config req.around.toAutosignAnswers req.certname

/-- The certificate is in the directory of signed certificates. -/
def Server.Records (ssl : OpenSsl Key) (server : Server Key) (certname : CString)
    (cert : Certificate Key) : Prop :=
  ∃ ctx, server.authority = some ctx ∧
    server.files (signedPath ctx.caDir certname) = some (ssl.writeCertificate cert).bytes

/-- The answer leaves only a pending request. -/
def Server.Keeps (server : Server Key) (req : CertificateRequest) (answer : Response Key)
    (server' : Server Key) : Prop :=
  (∃ message, answer = .error 202 message) ∧ ∃ ctx csrPem, server.authority = some ctx ∧
    req.csrPem = some csrPem ∧ server'.authority = some ctx ∧
      server'.files = Function.update server.files (csrPath ctx.caDir req.certname)
        (some csrPem.bytes)

/-- What the answer to a request should be: a certificate only for an accepted name, with that
name as its only common name, and recorded; otherwise a request that is in order is kept. -/
def Server.Obeys (ssl : OpenSsl Key) (server : Server Key) (req : CertificateRequest) : Prop :=
  let (answer, server') := handleCertificateRequest ssl server req
  (∀ cert, answer = .certificate cert → server.Accepts req ∧
    (∀ cn ∈ commonNames cert.subject, cn = req.certname.bytes) ∧
      server'.Records ssl req.certname cert) ∧
  (req.WellFormed ssl → (∀ cert, answer ≠ .certificate cert) →
    server.Keeps req answer server')

/-! ### When they are -/

/-- The handler gets to the policy for automatic signing. -/
structure Server.Reads (server : Server Key) (req : CertificateRequest) (ctx : Authority Key)
    (csrPem : CString) : Prop where
  has_authority : server.authority = some ctx
  has_csr : req.csrPem = some csrPem
  csr_ne : csrPem.bytes ≠ []
  certname_ne : req.certname.bytes ≠ []

/-- The policy for automatic signing lets the request through, or there is none. -/
def Server.LetsThrough (server : Server Key) (req : CertificateRequest) : Prop :=
  ∀ config, server.autosign = some config → req.around.provides .csrInfo ∧
    shouldSign config req.around.toAutosignAnswers req.certname

/-- The policy for automatic signing declines the request. -/
def Server.Declines (server : Server Key) (req : CertificateRequest) : Prop :=
  ∃ config, server.autosign = some config ∧ req.around.provides .csrInfo ∧
    ¬shouldSign config req.around.toAutosignAnswers req.certname

/-- The request reaches the signature with the checks of the handler and of the authority
passed. -/
structure Server.Signs (ssl : OpenSsl Key) (server : Server Key) (req : CertificateRequest)
    (ctx : Authority Key) (csrPem : CString) (checked : CheckedRequest Key) : Prop where
  reads : server.Reads req ctx csrPem
  lets : server.LetsThrough req
  checked : checkCsr ssl req.around ctx csrPem req.certname = .ok checked
  issues : req.around.issues
  serial : 0 ≤ ctx.serialNumber

/-- Every common name of a subject is its first, without a NUL and of at most 255 bytes. -/
def OneName (subject : List NameEntry) : Prop :=
  ∀ cn ∈ commonNames subject, (commonNames subject).head? = some cn ∧ cn.length ≤ 255 ∧ 0 ∉ cn

/-- The file of a certificate can be written, or it cannot be opened and is there already. -/
def Recordable (around : Surroundings) (files : Files) (path certname text : CString) : Prop :=
  if isValidCertname certname ∧ around.opens path then around.writes path = true
  else files path = some text.bytes

/-- The request reaches the place where it is kept, and can be written there. -/
structure Server.Holds (server : Server Key) (req : CertificateRequest) (ctx : Authority Key) :
    Prop where
  has_authority : server.authority = some ctx
  declines : server.Declines req
  directory : req.around.directoryReady (requestsDir ctx.caDir)
  opens : req.around.opens (csrPath ctx.caDir req.certname)
  writes : req.around.writes (csrPath ctx.caDir req.certname)

/-- The condition on a server and a request under which the answer is as it should be. -/
structure Server.Sound (ssl : OpenSsl Key) (server : Server Key) (req : CertificateRequest) :
    Prop where
  signed : ∀ ctx csrPem checked, server.Signs ssl req ctx csrPem checked →
    server.autosign ≠ none ∧ OneName checked.subject ∧
      Recordable req.around server.files (signedPath ctx.caDir req.certname) req.certname
        (ssl.writeCertificate (checked.certificate ctx.serialNumber))
  kept : req.WellFormed ssl →
    (∃ ctx csrPem checked, server.Signs ssl req ctx csrPem checked) ∨ ∃ ctx, server.Holds req ctx

section Proofs

variable {ssl : OpenSsl Key} {server : Server Key} {req : CertificateRequest}
variable {ctx : Authority Key} {csrPem : CString} {checked : CheckedRequest Key}

/-! ### The outcome of the handler -/

theorem Server.Reads.handle_of_letsThrough (h : server.Reads req ctx csrPem)
    (hlets : server.LetsThrough req) :
    handleCertificateRequest ssl server req = signRequest ssl server req ctx csrPem := by
  rw [handleCertificateRequest, h.has_authority, h.has_csr]
  cases hconfig : server.autosign with
  | none => simp [h.csr_ne, h.certname_ne]
  | some config =>
    obtain ⟨hinfo, hshould⟩ := hlets config hconfig
    simp [h.csr_ne, h.certname_ne, hinfo, hshould]

theorem Server.Reads.handle_of_declines (h : server.Reads req ctx csrPem)
    (hdeclines : server.Declines req) :
    handleCertificateRequest ssl server req = keepRequest server req ctx csrPem := by
  obtain ⟨config, hconfig, hinfo, hshould⟩ := hdeclines
  simp [handleCertificateRequest, h.has_authority, h.has_csr, h.csr_ne, h.certname_ne, hconfig,
    hinfo, hshould]

/-- What the handler does with a request: it refuses it and changes nothing, signs it, or keeps
it. -/
theorem handleCertificateRequest_cases (ssl : OpenSsl Key) (server : Server Key)
    (req : CertificateRequest) :
    (∃ status message, status ≠ 202 ∧
      handleCertificateRequest ssl server req = (.error status message, server)) ∨
    ∃ ctx csrPem, server.Reads req ctx csrPem ∧ (server.LetsThrough req ∨ server.Declines req) := by
  cases hauth : server.authority with
  | none => exact .inl ⟨503, _, by decide, by rw [handleCertificateRequest, hauth]⟩
  | some ctx => cases hcsr : req.csrPem with
    | none => exact .inl ⟨400, _, by decide, by rw [handleCertificateRequest, hauth, hcsr]⟩
    | some csrPem =>
      by_cases hempty : csrPem.bytes = []
      · refine .inl ⟨400, CString.ofString "Missing CSR in request body", by decide, ?_⟩
        rw [handleCertificateRequest, hauth, hcsr]
        exact if_pos hempty
      by_cases hname : req.certname.bytes = []
      · refine .inl ⟨400, CString.ofString "Missing certname", by decide, ?_⟩
        rw [handleCertificateRequest, hauth, hcsr]
        exact (if_neg hempty).trans (if_pos hname)
      have hreads : server.Reads req ctx csrPem := ⟨hauth, hcsr, hempty, hname⟩
      cases hconfig : server.autosign with
      | none => exact .inr ⟨ctx, csrPem, hreads, .inl (by simp [Server.LetsThrough, hconfig])⟩
      | some config =>
        by_cases hinfo : req.around.provides .csrInfo
        · refine .inr ⟨ctx, csrPem, hreads, ?_⟩
          by_cases hshould : shouldSign config req.around.toAutosignAnswers req.certname
          · exact .inl fun config' h ↦ Option.some.inj (hconfig.symm.trans h) ▸ ⟨hinfo, hshould⟩
          · exact .inr ⟨config, hconfig, hinfo, hshould⟩
        · refine .inl ⟨500, CString.ofString "Failed to create CSR info", by decide, ?_⟩
          simp [handleCertificateRequest, hauth, hcsr, hempty, hname, hconfig, hinfo]

theorem keepRequest_ne_certificate (cert : Certificate Key) :
    (keepRequest server req ctx csrPem).1 ≠ .certificate cert := by
  simp only [keepRequest]
  split_ifs <;> simp

theorem signRequest_ne_kept (message : CString) :
    (signRequest ssl server req ctx csrPem).1 ≠ .error 202 message := by
  rw [signRequest]
  rcases signCsr ssl req.around csrPem req.certname ctx server.files with ⟨_ | cert, ctx, files⟩
  all_goals simp

/-- Only a request that reaches the signature gets a certificate. -/
theorem exists_signs_of_certificate {cert : Certificate Key}
    (h : (handleCertificateRequest ssl server req).1 = .certificate cert) :
    ∃ ctx csrPem checked, server.Signs ssl req ctx csrPem checked := by
  rcases handleCertificateRequest_cases ssl server req with ⟨status, message, -, hrefused⟩ |
    ⟨ctx, csrPem, hreads, hlets | hdeclines⟩
  · simp [hrefused] at h
  · rw [hreads.handle_of_letsThrough hlets, signRequest] at h
    cases hcert : (signCsr ssl req.around csrPem req.certname ctx server.files).1 with
    | none => simp [hcert] at h
    | some cert =>
      obtain ⟨checked, hchecked, hissues, hserial, -⟩ := signCsr_eq_some_iff.1 hcert
      exact ⟨ctx, csrPem, checked, hreads, hlets, hchecked, hissues, hserial⟩
  · exact (keepRequest_ne_certificate cert (hreads.handle_of_declines hdeclines ▸ h)).elim

/-- A request that reaches the signature gets its certificate. -/
theorem Server.Signs.handle (h : server.Signs ssl req ctx csrPem checked) :
    handleCertificateRequest ssl server req =
      (.certificate (checked.certificate ctx.serialNumber),
        let state := afterSerial req.around ctx server.files
        let saved := saveSignedCert req.around req.certname
          (ssl.writeCertificate (checked.certificate ctx.serialNumber)) state.1 state.2
        { server with authority := some saved.1, files := saved.2 }) := by
  rw [h.reads.handle_of_letsThrough h.lets, signRequest, signCsr, h.checked]
  simp only [issueCertificate_of_issues h.issues h.serial]

/-- A declined request is answered as kept when it could be saved. -/
theorem keepRequest_fst_iff {message : CString} :
    (keepRequest server req ctx csrPem).1 = .error 202 message ↔
      CanSaveCsr req.around ctx req.certname ∧
        CString.ofString "Certificate request saved. Awaiting manual approval." = message := by
  rw [← saveCsr_fst_iff csrPem server.files, keepRequest]
  rcases saveCsr req.around req.certname csrPem ctx server.files with ⟨_ | _, ctx, files⟩
  all_goals simp

theorem keepRequest_snd (h : CanSaveCsr req.around ctx req.certname) :
    (keepRequest server req ctx csrPem).2 = { server with
      authority := some ctx
      files := server.files.write req.around (csrPath ctx.caDir req.certname) csrPem } := by
  simp only [keepRequest, saveCsr_of_canSaveCsr h, if_true]

/-! ### The exact condition -/

/-- The certificate of a request that passed the checks has no other common name than the
certname exactly when its common names are all one, without a NUL and of at most 255 bytes. -/
theorem named_iff_oneName (h : server.Signs ssl req ctx csrPem checked) :
    (∀ cn ∈ commonNames checked.subject, cn = req.certname.bytes) ↔ OneName checked.subject := by
  obtain ⟨-, -, -, csr, -, -, -, hsubject, text, htext, -, hname⟩ := checkCsr_eq_ok_iff.1 h.checked
  obtain ⟨first, hfirst, rfl⟩ : ∃ first, (commonNames checked.subject).head? = some first ∧
      first.take 255 = text := by
    rw [hsubject, textByNid, Option.map_eq_some_iff] at htext
    obtain ⟨entry, hentry, htext⟩ := htext
    exact ⟨entry.value, by simp [commonNames, hentry], htext⟩
  have hmem : first ∈ commonNames checked.subject := List.mem_of_head? hfirst
  have hbytes := congrArg CString.bytes hname
  constructor
  · intro hnamed cn hcn
    obtain rfl := (hnamed cn hcn).trans (hnamed first hmem).symm
    rw [← hnamed cn hcn] at hbytes
    exact ⟨hfirst, CString.ofBuffer_take_eq_iff.1 hbytes⟩
  · intro hone cn hcn
    obtain ⟨hhead, hplain⟩ := hone cn hcn
    obtain rfl := Option.some.inj (hfirst.symm.trans hhead)
    exact (CString.ofBuffer_take_eq_iff.2 hplain).symm.trans hbytes

/-- The certificate of a request is in its file exactly when it could be recorded there. -/
theorem records_iff_recordable (h : server.Signs ssl req ctx csrPem checked) :
    (handleCertificateRequest ssl server req).2.Records ssl req.certname
        (checked.certificate ctx.serialNumber) ↔
      Recordable req.around server.files (signedPath ctx.caDir req.certname) req.certname
        (ssl.writeCertificate (checked.certificate ctx.serialNumber)) := by
  rw [h.handle]
  simp only [Server.Records, Option.some.injEq, exists_eq_left', saveSignedCert_caDir,
    afterSerial_caDir, saveSignedCert_snd, Recordable]
  split_ifs
  · rw [Files.write, Function.update_self]
    cases req.around.writes (signedPath ctx.caDir req.certname)
    · simpa using (ssl.writeCertificate_ne_nil _).symm
    · simp
  · rw [afterSerial_snd_signedPath]

theorem Server.Holds.keeps (h : server.Holds req ctx) (hwell : req.WellFormed ssl) :
    server.Keeps req (handleCertificateRequest ssl server req).1
      (handleCertificateRequest ssl server req).2 := by
  obtain ⟨hvalid, csrPem, csr, hcsr, hne, -⟩ := hwell
  have hname : req.certname.bytes ≠ [] := by
    rw [isValidCertname, Bool.and_eq_true, Bool.and_eq_true] at hvalid
    exact of_decide_eq_true hvalid.1.1
  have hsave : CanSaveCsr req.around ctx req.certname :=
    ⟨hvalid, h.directory, h.opens, .inl h.writes⟩
  have hreads : server.Reads req ctx csrPem := ⟨h.has_authority, hcsr, hne, hname⟩
  rw [hreads.handle_of_declines h.declines, keepRequest_snd hsave]
  refine ⟨⟨_, keepRequest_fst_iff.2 ⟨hsave, rfl⟩⟩, ctx, csrPem, h.has_authority, hcsr, rfl, ?_⟩
  simp only [Files.write, h.writes, if_true]

/-- A request that is answered as kept, with its text in its file, reached the place where it is
kept. -/
theorem exists_holds_of_keeps
    (h : server.Keeps req (handleCertificateRequest ssl server req).1
      (handleCertificateRequest ssl server req).2)
    (hne : ∀ csrPem, req.csrPem = some csrPem → csrPem.bytes ≠ []) :
    ∃ ctx, server.Holds req ctx := by
  obtain ⟨⟨message, hanswer⟩, ctx, csrPem, hauth, hcsr, -, hfiles⟩ := h
  rcases handleCertificateRequest_cases ssl server req with ⟨status, message', hstatus, hrefused⟩ |
    ⟨ctx', csrPem', hreads, hlets | hdeclines⟩
  · simp [hrefused, hstatus] at hanswer
  · rw [hreads.handle_of_letsThrough hlets] at hanswer
    exact (signRequest_ne_kept message hanswer).elim
  · obtain rfl := Option.some.inj (hauth.symm.trans hreads.has_authority)
    obtain rfl := Option.some.inj (hcsr.symm.trans hreads.has_csr)
    rw [hreads.handle_of_declines hdeclines] at hanswer hfiles
    obtain ⟨hsave, -⟩ := keepRequest_fst_iff.1 hanswer
    rw [keepRequest_snd hsave] at hfiles
    have htext := congrFun hfiles (csrPath ctx.caDir req.certname)
    simp only [Files.write, Function.update_self] at htext
    refine ⟨ctx, hauth, hdeclines, hsave.directory, hsave.opens, ?_⟩
    by_contra hwrites
    rw [if_neg hwrites] at htext
    exact hne csrPem hcsr (Option.some.inj htext).symm

/-- The answer to a request is as it should be exactly under the condition. -/
theorem Server.obeys_iff_sound : server.Obeys ssl req ↔ server.Sound ssl req := by
  constructor
  · rintro ⟨hsigned, hkept⟩
    refine ⟨fun ctx csrPem checked h ↦ ?_, fun hwell ↦ ?_⟩
    · obtain ⟨⟨config, hconfig, -⟩, hnamed, hrecorded⟩ := hsigned _ (congrArg Prod.fst h.handle)
      exact ⟨by simp [hconfig], (named_iff_oneName h).1 hnamed,
        (records_iff_recordable h).1 hrecorded⟩
    · by_cases h : ∃ ctx csrPem checked, server.Signs ssl req ctx csrPem checked
      · exact .inl h
      · refine .inr (exists_holds_of_keeps
          (hkept hwell fun cert hcert ↦ h (exists_signs_of_certificate hcert)) ?_)
        obtain ⟨-, csrPem, -, hcsr, hne, -⟩ := hwell
        exact fun csrPem' hcsr' ↦ Option.some.inj (hcsr.symm.trans hcsr') ▸ hne
  · intro hsound
    refine ⟨fun cert hcert ↦ ?_, fun hwell hnone ↦ ?_⟩
    · obtain ⟨ctx, csrPem, checked, h⟩ := exists_signs_of_certificate hcert
      obtain rfl : checked.certificate ctx.serialNumber = cert :=
        Response.certificate.inj ((congrArg Prod.fst h.handle).symm.trans hcert)
      obtain ⟨hconfig, hone, hrecord⟩ := hsound.signed ctx csrPem checked h
      obtain ⟨config, hconfig⟩ := Option.ne_none_iff_exists'.1 hconfig
      exact ⟨⟨config, hconfig, (h.lets config hconfig).2⟩, (named_iff_oneName h).2 hone,
        (records_iff_recordable h).2 hrecord⟩
    · rcases hsound.kept hwell with ⟨ctx, csrPem, checked, h⟩ | ⟨ctx, h⟩
      · exact (hnone _ (congrArg Prod.fst h.handle)).elim
      · exact h.keeps hwell

end Proofs

/-- In a run of requests, every answer is as it should be exactly when every request meets the
condition. -/
theorem obeys_along_iff (ssl : OpenSsl Key) (server : Server Key) (reqs : List CertificateRequest) :
    (certificateServer ssl).Along (Server.Obeys ssl) server reqs ↔
      (certificateServer ssl).Along (Server.Sound ssl) server reqs :=
  StepSystem.along_congr fun _ _ ↦ Server.obeys_iff_sound

section TwoNames

/-- OpenSSL, where every request has the common names `web1` and `admin`. -/
def twoNamesSsl : OpenSsl ℕ where
  readRequest _ := some
    { subject := [⟨.commonName, (CString.ofString "web1").bytes⟩,
        ⟨.commonName, (CString.ofString "admin").bytes⟩]
      publicKey := some 1
      verified := true }
  writeCertificate _ := CString.ofString "CERTIFICATE"
  writeCertificate_ne_nil _ := by decide

/-- An authority that signs the names of a whitelist. -/
def whitelistServer : Server ℕ where
  authority := some
    { caDir := CString.ofString "/ca"
      caCert := some ⟨1, [], [], 0, 0⟩
      caKey := some 0
      serialNumber := 2
      lastError := CString.ofString "" }
  autosign := some ⟨.whitelist, none, some (CString.ofString "/whitelist")⟩
  files _ := none

/-- A request for `web1`, which is in the whitelist. -/
def webRequest : CertificateRequest where
  certname := CString.ofString "web1"
  csrPem := some (CString.ofString "REQUEST")
  around :=
    { whitelist := fun _ ↦ some (CString.ofString "web1\n").bytes
      policy := fun _ _ ↦ .notStarted
      provides := fun _ ↦ true
      directoryReady := fun _ ↦ true
      opens := fun _ ↦ true
      writes := fun _ ↦ true
      reportsWrite := fun _ ↦ true
      strerror := CString.ofString "" }

/-- A request for a name that the policy accepts gets a certificate that names another node
too. -/
theorem not_forall_obeys :
    ¬∀ (Key : Type) (ssl : OpenSsl Key) (server : Server Key) (reqs : List CertificateRequest),
      (certificateServer ssl).Along (Server.Obeys ssl) server reqs := by
  intro h
  have hobeys : whitelistServer.Obeys twoNamesSsl webRequest :=
    (h ℕ twoNamesSsl whitelistServer [webRequest]).1
  have hcert : (handleCertificateRequest twoNamesSsl whitelistServer webRequest).1 = .certificate
      { serial := 2
        subject := [⟨.commonName, (CString.ofString "web1").bytes⟩,
          ⟨.commonName, (CString.ofString "admin").bytes⟩]
        issuer := []
        publicKey := 1
        signedBy := 0 } := by decide +kernel
  have hnamed := (hobeys.1 _ hcert).2.1 (CString.ofString "admin").bytes (by decide)
  exact absurd hnamed (by decide)

end TwoNames

end PuppetC
