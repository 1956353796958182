import PuppetC.Agent.Resource
import PuppetC.Support.Stateful
import PuppetC.Support.StepSystem

/-!
# The certificate of the agent

An agent without a certificate makes a private key, unless it has one, sends a certificate signing
request that is signed with it, and saves what the server answers. All that a later run looks at is
whether the files are there: a certificate file that was opened but not written whole, or was
written beside a key file that does not hold the key, is taken for a certificate by all later runs.

## Main definitions

* `ensureCertificate`, with `generatePrivateKey`, `submitCertificateRequest`.
* `Enrolled`: the certificate file holds an answer to a request that was signed with the key in the
  key file.
* `NeverMistaken`: in a sequence of runs, only an enrolled agent is told that it is.
* `CarefulRun`: the condition on a run, in the state before it.

## Main results

* `ensureCertificate_ends`: how a run ends.
* `ensure_certificate_sound`: a sequence of careful runs is never mistaken.
-/

namespace PuppetC

/-- Why a run stops: it reports an error, or it is interrupted. -/
inductive EnrolmentStop where
  | failed
  | interrupted
  deriving DecidableEq

/-- The private keys in PEM files. -/
structure PemFormat (Key : Type) where
  write : Key → Bytes
  read : Bytes → Option Key

/-- A certificate signing request, with the key that it is signed with. -/
structure Csr (Key : Type) where
  signer : Key
  subject : Bytes

/-- How a file that was opened is written: the number of bytes that reach it, and whether the
writer is told that this was all. -/
structure FileWrite where
  stored : ℕ
  reports : Except EnrolmentStop Unit

/-- What happens in a run, at each of its calls. -/
structure EnrolmentRun (Key : Type) where
  load : Except EnrolmentStop Unit
  keygen : Except EnrolmentStop Key
  keyWrite : Except EnrolmentStop FileWrite
  csr : Except EnrolmentStop Unit
  reply : Except EnrolmentStop (ℕ × Bytes)
  certWrite : Except EnrolmentStop FileWrite

/-- The paths, and the name that is certified. -/
structure EnrolmentConfig where
  keyPath : Bytes
  certPath : Bytes
  certname : Bytes

/-- The files, and the requests that were answered with 200, with the answers. -/
structure EnrolmentState (Key : Type) where
  files : Bytes → Option Bytes
  answers : List (Csr Key × Bytes)

section Run

variable {Key : Type} (cfg : EnrolmentConfig) (pem : PemFormat Key) (r : EnrolmentRun Key)

/-- A file gets a new content. -/
def EnrolmentState.write (path content : Bytes) (s : EnrolmentState Key) : EnrolmentState Key :=
  { s with files := Function.update s.files path (some content) }

open Stateful (attempt)

/-- `generate_private_key`. -/
def generatePrivateKey : Stateful (EnrolmentState Key) EnrolmentStop Key := do
  let pkey ← attempt r.keygen
  let w ← attempt r.keyWrite
  modify (EnrolmentState.write cfg.keyPath ((pem.write pkey).take w.stored))
  attempt w.reports
  return pkey

/-- `submit_certificate_request`. -/
def submitCertificateRequest (req : Csr Key) :
    Stateful (EnrolmentState Key) EnrolmentStop Unit := do
  let (code, body) ← attempt r.reply
  if code = 200 then
    modify fun s ↦ { s with answers := s.answers ++ [(req, body)] }
    let w ← attempt r.certWrite
    modify (EnrolmentState.write cfg.certPath (body.take w.stored))
    attempt w.reports
  else throw .failed

/-- The key that is there, or a new one. -/
def obtainKey : Stateful (EnrolmentState Key) EnrolmentStop Key := do
  match (← get).files cfg.keyPath with
  | none => generatePrivateKey cfg pem r
  | some content =>
    attempt r.load
    match pem.read content with
    | some pkey => return pkey
    | none => throw .failed

/-- `ensure_certificate`. -/
def ensureCertificate : Stateful (EnrolmentState Key) EnrolmentStop Unit := do
  if ((← get).files cfg.certPath).isSome then return
  let pkey ← obtainKey cfg pem r
  attempt r.csr
  submitCertificateRequest cfg r ⟨pkey, cfg.certname⟩

end Run

/-! ### What a run should do -/

section Property

variable {Key : Type} (cfg : EnrolmentConfig) (pem : PemFormat Key)

/-- The agents as a system that moves by runs. -/
def enrolment : StepSystem (EnrolmentState Key) (EnrolmentRun Key) where
  step s r := some ((ensureCertificate cfg pem r).outcome s).2

/-- The certificate file holds an answer to a request that was signed with the key in the key
file. -/
def Enrolled (s : EnrolmentState Key) : Prop :=
  ∃ content pkey csr body, s.files cfg.keyPath = some content ∧ pem.read content = some pkey ∧
    csr.signer = pkey ∧ (csr, body) ∈ s.answers ∧ s.files cfg.certPath = some body

/-- Whenever a run of the sequence returns 0, the agent is enrolled. -/
def NeverMistaken (s : EnrolmentState Key) (runs : List (EnrolmentRun Key)) : Prop :=
  ∀ pre r post s₁, runs = pre ++ r :: post → (enrolment cfg pem).run s pre = some s₁ →
    ((ensureCertificate cfg pem r).outcome s₁).1 = .ok () →
      Enrolled cfg pem ((ensureCertificate cfg pem r).outcome s₁).2

/-- The key that a run works with, and what the key file holds then. -/
def EnrolmentRun.keyAt (r : EnrolmentRun Key) (s : EnrolmentState Key) : Option (Key × Bytes) :=
  match s.files cfg.keyPath with
  | some content =>
    match r.load with
    | .ok _ => (pem.read content).map fun pkey ↦ (pkey, content)
    | .error _ => none
  | none =>
    match r.keygen, r.keyWrite with
    | .ok pkey, .ok w =>
      match w.reports with
      | .ok _ => some (pkey, (pem.write pkey).take w.stored)
      | .error _ => none
    | _, _ => none

/-- A run gets so far as to open the certificate file, for the answer to a request. -/
structure Opens (r : EnrolmentRun Key) (s : EnrolmentState Key) (pkey : Key) (content body : Bytes)
    (w : FileWrite) : Prop where
  fresh : s.files cfg.certPath = none
  key : r.keyAt cfg pem s = some (pkey, content)
  csr : r.csr = .ok ()
  reply : r.reply = .ok (200, body)
  write : r.certWrite = .ok w

/-- The condition on a run: if it opens the certificate file, the key file holds the key that the
request is signed with, and all of the answer reaches the certificate file. -/
def CarefulRun (s : EnrolmentState Key) (r : EnrolmentRun Key) : Prop :=
  ∀ pkey content body w, Opens cfg pem r s pkey content body w →
    pem.read content = some pkey ∧ body.length ≤ w.stored

end Property

/-! ### How a run ends -/

section Ends

variable {Key : Type} {cfg : EnrolmentConfig} (pem : PemFormat Key) (r : EnrolmentRun Key)
  (s : EnrolmentState Key)

open Stateful

/-- While the key is obtained, the certificate file is not touched. -/
theorem obtainKey_ends (hpaths : cfg.keyPath ≠ cfg.certPath) :
    (obtainKey cfg pem r).Leads s fun result s' ↦
      s'.files cfg.certPath = s.files cfg.certPath ∧ s'.answers = s.answers ∧
        ∀ pkey, result = .ok pkey →
          ∃ content, s'.files cfg.keyPath = some content ∧
            r.keyAt cfg pem s = some (pkey, content) := by
  rw [obtainKey, leads_get_bind]
  cases hkey : s.files cfg.keyPath with
  | none =>
    have hwritten (content : Bytes) : (s.write cfg.keyPath content).files cfg.certPath =
        s.files cfg.certPath := Function.update_of_ne hpaths.symm _ _
    change (generatePrivateKey cfg pem r).Leads s _
    rw [generatePrivateKey, leads_attempt_bind]
    cases hkeygen : r.keygen with
    | error e => exact ⟨rfl, rfl, fun pkey h ↦ by cases h⟩
    | ok pkey =>
      dsimp only
      rw [leads_attempt_bind]
      cases hwrite : r.keyWrite with
      | error e => exact ⟨rfl, rfl, fun pkey h ↦ by cases h⟩
      | ok w =>
        dsimp only
        rw [leads_modify_bind, leads_attempt_bind]
        cases hreports : w.reports with
        | error e => exact ⟨hwritten _, rfl, fun pkey h ↦ by cases h⟩
        | ok u =>
          refine ⟨hwritten _, rfl, fun pkey' h ↦ ?_⟩
          obtain rfl : pkey = pkey' := Except.ok.inj h
          refine ⟨_, Function.update_self _ _ _, ?_⟩
          rw [EnrolmentRun.keyAt, hkey, hkeygen, hwrite]
          dsimp only
          rw [hreports]
  | some content =>
    dsimp only
    rw [leads_attempt_bind]
    cases hload : r.load with
    | error e => exact ⟨rfl, rfl, fun pkey h ↦ by cases h⟩
    | ok u =>
      cases hread : pem.read content with
      | none => exact ⟨rfl, rfl, fun pkey h ↦ by cases h⟩
      | some pkey =>
        refine ⟨rfl, rfl, fun pkey' h ↦ ?_⟩
        obtain rfl : pkey = pkey' := Except.ok.inj h
        refine ⟨content, hkey, ?_⟩
        rw [EnrolmentRun.keyAt, hkey, hload]
        dsimp only
        rw [hread, Option.map_some]

/-- A run finds a certificate file and returns; or it stops before there is one; or it opens it. -/
theorem ensureCertificate_ends (hpaths : cfg.keyPath ≠ cfg.certPath) :
    (ensureCertificate cfg pem r).Leads s fun result s' ↦
      (s.files cfg.certPath ≠ none ∧ s' = s) ∨
        (s'.files cfg.certPath = none ∧ result ≠ .ok ()) ∨
          ∃ pkey content body w, Opens cfg pem r s pkey content body w ∧
            s'.files cfg.keyPath = some content ∧ (⟨pkey, cfg.certname⟩, body) ∈ s'.answers ∧
              s'.files cfg.certPath = some (body.take w.stored) := by
  rw [ensureCertificate, leads_get_bind]
  cases hcert : s.files cfg.certPath with
  | some content => exact .inl ⟨by simp, rfl⟩
  | none =>
    refine Leads.bind (obtainKey_ends pem r s hpaths) (fun pkey s₁ h₁ ↦ ?_)
      fun e s₁ h₁ ↦ .inr (.inl ⟨h₁.1.trans hcert, by simp⟩)
    obtain ⟨hsame, -, hkey⟩ := h₁
    obtain ⟨content, hcontent, hkeyAt⟩ := hkey pkey rfl
    have hnone : s₁.files cfg.certPath = none := hsame.trans hcert
    rw [leads_attempt_bind]
    cases hcsr : r.csr with
    | error e => exact .inr (.inl ⟨hnone, by simp⟩)
    | ok u =>
      dsimp only
      rw [submitCertificateRequest, leads_attempt_bind]
      cases hreply : r.reply with
      | error e => exact .inr (.inl ⟨hnone, by simp⟩)
      | ok answer =>
        obtain ⟨code, body⟩ := answer
        dsimp only
        split_ifs with hcode
        · rw [leads_modify_bind, leads_attempt_bind]
          cases hwrite : r.certWrite with
          | error e => exact .inr (.inl ⟨hnone, by simp⟩)
          | ok w =>
            dsimp only
            rw [leads_modify_bind, leads_attempt]
            refine .inr (.inr ⟨pkey, content, body, w, ⟨hcert, hkeyAt, hcsr, ?_, hwrite⟩, ?_, ?_,
              ?_⟩)
            · rw [hreply, hcode]
            · exact (Function.update_of_ne hpaths _ _).trans hcontent
            · exact List.mem_append_right _ (List.mem_singleton_self _)
            · exact Function.update_self _ _ _
        · exact .inr (.inl ⟨hnone, fun h ↦ by cases h⟩)

end Ends

/-! ### Sequences of runs -/

section Sequences

variable {Key : Type} {cfg : EnrolmentConfig} {pem : PemFormat Key} {r : EnrolmentRun Key}
  {s : EnrolmentState Key}

/-- A certificate file is there only if the agent is enrolled. -/
def EnrolmentState.Sound (cfg : EnrolmentConfig) (pem : PemFormat Key) (s : EnrolmentState Key) :
    Prop :=
  s.files cfg.certPath = none ∨ Enrolled cfg pem s

/-- A careful run leaves a sound state, and returns 0 only if the agent is enrolled. -/
theorem EnrolmentState.Sound.ensureCertificate (hpaths : cfg.keyPath ≠ cfg.certPath)
    (h : s.Sound cfg pem) (hcareful : CarefulRun cfg pem s r) :
    (ensureCertificate cfg pem r).Leads s fun result s' ↦
      s'.Sound cfg pem ∧ (result = .ok () → Enrolled cfg pem s') := by
  refine (ensureCertificate_ends pem r s hpaths).mono fun result s' hends ↦ ?_
  rcases hends with ⟨hcert, rfl⟩ | ⟨hcert, hresult⟩ | ⟨pkey, content, body, w, hopens, hends⟩
  · have henrolled : Enrolled cfg pem s' := h.resolve_left hcert
    exact ⟨h, fun _ ↦ henrolled⟩
  · exact ⟨.inl hcert, fun hok ↦ absurd hok hresult⟩
  · obtain ⟨hkey, hanswer, hcert⟩ := hends
    obtain ⟨hread, hwhole⟩ := hcareful pkey content body w hopens
    have henrolled : Enrolled cfg pem s' :=
      ⟨content, pkey, ⟨pkey, cfg.certname⟩, body, hkey, hread, rfl, hanswer,
        hcert.trans (congrArg some (List.take_of_length_le hwhole))⟩
    exact ⟨.inr henrolled, fun _ ↦ henrolled⟩

/-- A sequence of careful runs that starts without a certificate file is never mistaken. -/
theorem ensure_certificate_sound (hpaths : cfg.keyPath ≠ cfg.certPath)
    (hfresh : s.files cfg.certPath = none) {runs : List (EnrolmentRun Key)}
    (hruns : (enrolment cfg pem).Along (CarefulRun cfg pem) s runs) :
    NeverMistaken cfg pem s runs := by
  intro pre r post s₁ hsplit hrun hok
  obtain ⟨hpre, hr⟩ := StepSystem.along_append_iff.1 (hsplit ▸ hruns)
  have hsound : s₁.Sound cfg pem := hpre.invariant (fun s a s' hs ha hstep ↦ by
    obtain rfl := Option.some.inj hstep
    exact (hs.ensureCertificate hpaths ha).1) (.inl hfresh) hrun
  exact (hsound.ensureCertificate hpaths (hr s₁ hrun).1).2 hok

end Sequences

/-- The paths of an agent. -/
def enrolPaths : EnrolmentConfig := ⟨"key.pem".toList, "cert.pem".toList, "agent".toList⟩

/-- A run in which a key is made and written, and a certificate answered, of which the disk takes
some bytes. -/
def certificateRun (certWrite : Except EnrolmentStop FileWrite) : EnrolmentRun Unit :=
  ⟨.ok (), .ok (), .ok ⟨3, .ok ()⟩, .ok (), .ok (200, "CERT".toList), certWrite⟩

/-- The first run is interrupted when it has the answer, and the second saves it. -/
theorem ensure_certificate_sound_interrupted :
    NeverMistaken enrolPaths
      ⟨fun _ ↦ "KEY".toList, fun t ↦ if t = "KEY".toList then some () else none⟩
      ⟨fun _ ↦ none, []⟩
      [certificateRun (.error .interrupted), certificateRun (.ok ⟨4, .ok ()⟩)] := by
  refine ensure_certificate_sound (by decide) rfl ?_
  rw [StepSystem.along_cons_of_step rfl, StepSystem.along_cons_of_step rfl]
  refine ⟨fun pkey content body w h ↦ ?_, fun pkey content body w h ↦ ?_, trivial⟩
  · cases h.write
  · cases h.key
    cases h.reply
    cases h.write
    decide

/-- When the disk is full after two bytes of the certificate, the next run returns 0. -/
theorem not_neverMistaken_fullDisk : ¬ ∃ pem : PemFormat Unit,
    NeverMistaken enrolPaths pem ⟨fun _ ↦ none, []⟩
      [certificateRun (.ok ⟨2, .error .failed⟩), certificateRun (.ok ⟨2, .error .failed⟩)] := by
  rintro ⟨pem, h⟩
  obtain ⟨content, pkey, csr, body, -, -, -, hanswer, hcert⟩ := h [_] _ [] _ rfl rfl rfl
  obtain rfl : "CE".toList = body := Option.some.inj hcert
  obtain heq : (csr, "CE".toList) = (⟨(), "agent".toList⟩, "CERT".toList) :=
    List.mem_singleton.1 hanswer
  have hbody : "CE".toList = "CERT".toList := congrArg Prod.snd heq
  exact absurd hbody (by decide)

end PuppetC
