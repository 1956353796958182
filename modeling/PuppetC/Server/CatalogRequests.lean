import PuppetC.Catalog.Document
import PuppetC.Interp.Program
import PuppetC.Interp.Runs
import PuppetC.Json.Spliced
import PuppetC.Server.ExportedResources
import PuppetC.Server.Response

/-!
# Catalog requests

A request for a catalog names a node and brings its facts. The server executes its manifest for
the node and answers with the text of the catalog, or with the text of an error; in PuppetDB it
stores the facts and whatever text it answers with, be it the text of an error. So the stored
catalogs are those of the last compiles that succeeded only as long as no compile fails. The
message of a failed compile is spliced into the text of the error as it is.

## Main definitions

* `readCatalogRequest`, `handleCatalog`: the two parts of `handle_catalog`.
* `SiteManifest.Compiles`: how the compile of `compile_catalog` ends.
* `CompileEnd.text`: the text that `compile_catalog` returns.
* `CatalogRun`: requests that are handled one after the other.
* `lastCompiled`: the catalog of the last compile of a certname that succeeded.
* `CompiledStored`: what the stored catalogs and the responses should be.
* `CompileEnd.Harmless`: the compile does not fail, or neither harms PuppetDB nor the response.

## Main results

* `isErrorBody_failed`: a message that has nothing to escape makes a well-formed error.
* `CatalogRun.compiledStored`: as long as no compile does harm, the stored catalogs are the
  compiled ones, and failed compiles are answered with well-formed errors.
-/

namespace PuppetC

/-! ### Reading requests -/

/-- What a request asks for. -/
structure CatalogRequest where
  certname : Bytes
  environment : Option Bytes
  facts : Option Json

/-- The part of `handle_catalog` before the compile; the error is the response. -/
def readCatalogRequest : Option Bytes → Except HttpResponse CatalogRequest
  | none | some [] => .error (sendError 400 "Missing request body".toList)
  | some body =>
    match jsonParse body with
    | .ok (.object members) =>
      let request : Json := .object members
      match request.getString? "certname".toList with
      | none => .error (sendError 400 "Missing or invalid 'certname' field".toList)
      | some certname =>
        .ok ⟨certname, request.getString? "environment".toList, request.get? "facts".toList⟩
    | _ => .error (sendError 400 "Invalid JSON in request body".toList)

/-! ### Compiling -/

/-- The manifest of the server at the time of a request: no path is configured, the loader cannot
be created, there is no `site.pp` that can be parsed, or there are its statements, with the world
they are executed in. -/
inductive SiteManifest where
  | unset
  | loaderFailed
  | missing
  | loaded (w : World) (topLevel : List Stmt)

/-- How a compile ends. The document is missing if there is no memory for it. -/
inductive CompileEnd where
  | loaderFailed
  | noManifest
  | failed (message : Option String)
  | noCatalog
  | compiled (document : Option CatalogDocument)

/-- The text of an error that `compile_catalog` returns. -/
def errorJson (message : Bytes) : Bytes :=
  "\x7b\x22error\x22: \x22".toList ++ message ++ "\x22\x7d".toList

/-- The text that `compile_catalog` returns. -/
def CompileEnd.text : CompileEnd → Option Bytes
  | .loaderFailed => some (errorJson "Failed to create module loader".toList)
  | .noManifest => some (errorJson "No manifest found".toList)
  | .failed message =>
    some (cutTo 1024 (errorJson ("Catalog compilation failed: ".toList ++
      (message.getD "unknown error").toList)))
  | .noCatalog => some (errorJson "No catalog generated".toList)
  | .compiled document => document.map CatalogDocument.toJson

/-- How a compile ends, and what it exported to PuppetDB. -/
structure CompileOutcome where
  ending : CompileEnd
  exports : List (String × VirtualResource)

/-- `puppet_facts_db_load_json`, for facts that are an object. -/
def requestFacts (certname : Bytes) : Option Json → Option FactsDb
  | some (.object members) =>
    some ⟨[⟨String.ofList certname, factsProcessMembers Table.empty "" members⟩]⟩
  | _ => none

/-- The world of a request: the facts it brings, and the answers of PuppetDB. -/
def World.forRequest (w : World) (db : Option PuppetDb) (q : CatalogRequest) : World :=
  { w with
    factsDb := requestFacts q.certname q.facts
    puppetdbQuery := fun exports type ↦
      match db with
      | none => []
      | some db => readExported ((db.storeExports exports).queryExported type.toList)
    puppetdbStore := fun _ ↦ true }

/-- The environment that `compile_catalog` prepares. -/
def Env.forRequest (db : Option PuppetDb) (q : CatalogRequest) : Env :=
  { Env.create with
    puppetdb := db.isSome
    nodeName := some (String.ofList q.certname)
    buildCatalog := true
    catalog := some (Catalog.create (some (String.ofList q.certname))
      (some (String.ofList (q.environment.getD "production".toList))))
    factsCurrentNode := (requestFacts q.certname q.facts).map fun _ ↦ String.ofList q.certname }

/-- The document of a catalog, with any version, tags, files and lines. -/
structure CatalogDocument.IsOf (d : CatalogDocument) (c : Catalog) : Prop where
  certname : d.certname = c.certname
  environment : d.environment = c.environment
  classes : d.classes = c.classes
  resources : d.resources.map DocumentResource.toCatalogResource = c.resources
  edges : d.edges = c.edges

/-- How the compile ends in an environment in which the program has been executed. -/
def Env.EndsAs (env : Env) : CompileEnd → Prop
  | .failed message => env.compilationFailed = true ∧ message = env.failureMessage
  | .noCatalog => env.compilationFailed = false ∧ env.catalog = none
  | .compiled document =>
    env.compilationFailed = false ∧ ∃ c, env.catalog = some c ∧ ∀ d ∈ document, d.IsOf c
  | .loaderFailed | .noManifest => False

/-- The compile of `compile_catalog`. -/
inductive SiteManifest.Compiles (db : Option PuppetDb) (q : CatalogRequest) :
    SiteManifest → CompileOutcome → Prop where
  | loaderFailed : Compiles db q .loaderFailed ⟨.loaderFailed, []⟩
  | unset : Compiles db q .unset ⟨.noManifest, []⟩
  | missing : Compiles db q .missing ⟨.noManifest, []⟩
  | executed {w : World} {topLevel : List Stmt} {env' : Env} {ending : CompileEnd}
      (hrun : (w.forRequest db q).Returns (execProgram (w.forRequest db q) topLevel)
        (Env.forRequest db q) () env')
      (hend : env'.EndsAs ending) :
      Compiles db q (.loaded w topLevel) ⟨ending, env'.exports⟩

/-! ### Handling requests -/

/-- The part of `handle_catalog` after the compile: what is stored, and the response. -/
def handleCatalog (db : Option PuppetDb) (q : CatalogRequest) (out : CompileOutcome) :
    HttpResponse × Option PuppetDb :=
  let db := db.map (·.storeExports out.exports)
  match out.ending.text with
  | none => (sendError 500 "Failed to compile catalog".toList, db)
  | some text =>
    (⟨200, text⟩, db.map fun db ↦
      let db :=
        match q.facts with
        | some facts => db.storeFacts q.certname facts.toText
        | none => db
      db.storeCatalog q.certname text)

/-- A request that was handled: the database before and after it, what was compiled, if anything
was, and the response. -/
structure Handled where
  before : Option PuppetDb
  compiled : Option (CatalogRequest × CompileEnd)
  response : HttpResponse
  after : Option PuppetDb

/-- One request is handled. -/
inductive HandlesCatalog (site : SiteManifest) (body : Option Bytes) (db : Option PuppetDb) :
    Handled → Prop where
  | rejected {r : HttpResponse} (hread : readCatalogRequest body = .error r) :
      HandlesCatalog site body db ⟨db, none, r, db⟩
  | compiled {q : CatalogRequest} {out : CompileOutcome} (hread : readCatalogRequest body = .ok q)
      (hcompile : site.Compiles db q out) :
      HandlesCatalog site body db
        ⟨db, some (q, out.ending), (handleCatalog db q out).1, (handleCatalog db q out).2⟩

/-- Requests are handled one after the other. -/
inductive CatalogRun (db : Option PuppetDb) : List Handled → Option PuppetDb → Prop where
  | nil : CatalogRun db [] db
  | snoc {db' : Option PuppetDb} {hs : List Handled} {h : Handled} {site : SiteManifest}
      {body : Option Bytes} (hrun : CatalogRun db hs db') (hstep : HandlesCatalog site body db' h) :
      CatalogRun db (hs ++ [h]) h.after

/-! ### What the stored catalogs should be -/

/-- The catalog that a request compiled, if the compile succeeded. -/
def Handled.catalog (h : Handled) : Option (Bytes × Bytes) :=
  match h.compiled with
  | some (q, .compiled (some d)) => some (q.certname, d.toJson)
  | _ => none

/-- A compile was tried and failed. -/
def Handled.Fails (h : Handled) : Prop := h.compiled.isSome ∧ h.catalog = none

/-- The catalog of the last compile of a certname that succeeded, or what there was before. -/
def lastCompiled (certname : Bytes) (start : Option Bytes) (hs : List Handled) : Option Bytes :=
  hs.foldl (fun last h ↦
    match h.catalog with
    | some (c, text) => if certname = c then some text else last
    | none => last) start

/-- The whole body is a JSON object that begins with the text of an error, and it has no control
characters. -/
structure IsErrorBody (body : Bytes) : Prop where
  reads : ∃ message members,
    Lexes body (JsonOf.object (("error".toList, .string message) :: members) : Json).tokens []
  printable : ∀ c ∈ body, ' ' ≤ c

/-- PuppetDB holds the catalogs that were compiled last; a request whose compile failed left the
stored catalogs as they were, and its response is a well-formed error. -/
structure CompiledStored (db : Option PuppetDb) (hs : List Handled) (db' : Option PuppetDb) :
    Prop where
  stored : ∀ d ∈ db, ∃ d' ∈ db', ∀ certname,
    d'.getCatalog certname = lastCompiled certname (d.getCatalog certname) hs
  left : ∀ h ∈ hs, h.Fails → ∀ d ∈ h.before, ∃ d' ∈ h.after, ∀ certname,
    d'.getCatalog certname = d.getCatalog certname
  answered : ∀ h ∈ hs, h.Fails → IsErrorBody h.response.body

/-- A message can be spliced into the text of an error: nothing in it ends the string or is not
allowed there, and the text fits into its buffer. -/
structure IsSpliceable (message : Bytes) : Prop where
  plain : IsPlain message
  printable : ∀ c ∈ message, ' ' ≤ c
  short : message.length < 983

/-- A compile does no harm: it ends with a catalog, or there is no memory for one; without
PuppetDB it may fail with a message that can be spliced. -/
def CompileEnd.Harmless (puppetdb : Bool) : CompileEnd → Prop
  | .compiled _ => True
  | .failed message =>
    puppetdb = false ∧ IsSpliceable (message.getD "unknown error").toList
  | .loaderFailed | .noManifest | .noCatalog => puppetdb = false

/-- The compile of a request, if there was one, did no harm. -/
def Handled.Harmless (h : Handled) : Prop :=
  ∀ q e, h.compiled = some (q, e) → e.Harmless h.before.isSome

/-! ### Texts of errors -/

theorem errorJson_eq (message : Bytes) : errorJson message =
    '\x7b' :: (quoted "error".toList ++ ':' :: ' ' :: (quoted message ++ ['\x7d'])) := by
  unfold errorJson
  simp [quoted]

theorem tokens_error (message : Bytes) :
    (JsonOf.object [("error".toList, .string message)] : Json).tokens =
      [.objectStart, .string "error".toList, .colon, .string message, .objectEnd] := by
  simp [JsonOf.tokens, JsonOf.memberTokens]

/-- A message that has nothing to escape makes a well-formed error. -/
theorem isErrorBody_errorJson {message : Bytes} (hplain : IsPlain message)
    (hprint : ∀ c ∈ message, ' ' ≤ c) : IsErrorBody (errorJson message) where
  reads := by
    have hnul : '\x00' ∉ message := fun h ↦ absurd (hprint _ h) (by decide)
    have hend : Lexes ['\x7d'] [.objectEnd] [] := Lexes.punctuation rfl (.nil [])
    have hmessage := (hend.quoted hplain hnul).blank (c := ' ') rfl
    have hcolon := hmessage.punctuation (c := ':') (t := .colon) rfl
    have hkey := hcolon.quoted (s := "error".toList) (by simp [IsPlain]) (by simp)
    refine ⟨message, [], ?_⟩
    rw [errorJson_eq, tokens_error]
    exact hkey.punctuation rfl
  printable := by
    unfold errorJson
    refine List.forall_mem_append.2 ⟨List.forall_mem_append.2 ⟨?_, hprint⟩, ?_⟩
    · simp
    · simp

theorem length_errorJson (message : Bytes) : (errorJson message).length = message.length + 13 := by
  rw [errorJson_eq]
  simp [quoted]

/-- The error of a failed compile, if its message can be spliced. -/
theorem isErrorBody_failed {message : Bytes} (h : IsSpliceable message) :
    IsErrorBody (cutTo 1024 (errorJson ("Catalog compilation failed: ".toList ++ message))) := by
  have hlength := h.short
  rw [cutTo_of_lt (by simp [length_errorJson]; omega)]
  refine isErrorBody_errorJson ?_ ?_
  · exact List.forall_mem_append.2 ⟨by simp, h.plain⟩
  · exact List.forall_mem_append.2 ⟨by simp, h.printable⟩

theorem body_sendError : (sendError 500 "Failed to compile catalog".toList).body =
    '\x7b' :: (quoted "error".toList ++ ':' :: ' ' ::
      (quoted "Failed to compile catalog".toList ++ ',' :: ' ' ::
        (quoted "status".toList ++ ':' :: ' ' :: ((Numeral.ofInt 500).text ++ ['\x7d'])))) := by
  decide +kernel

/-- The response where there was no memory for the catalog. -/
theorem isErrorBody_sendError :
    IsErrorBody (sendError 500 "Failed to compile catalog".toList).body where
  reads := by
    have hend : Lexes ['\x7d'] [.objectEnd] [] := Lexes.punctuation rfl (.nil [])
    have hnumber := (hend.number (Numeral.ofInt 500) (ends_cons (by decide))).blank (c := ' ') rfl
    have hstatus := (hnumber.punctuation (c := ':') (t := .colon) rfl).quoted
      (s := "status".toList) (by simp [IsPlain]) (by simp)
    have hcomma := (hstatus.blank (c := ' ') rfl).punctuation (c := ',') (t := .comma) rfl
    have hmessage := (hcomma.quoted (s := "Failed to compile catalog".toList) (by simp [IsPlain])
      (by simp)).blank (c := ' ') rfl
    have hkey := (hmessage.punctuation (c := ':') (t := .colon) rfl).quoted
      (s := "error".toList) (by simp [IsPlain]) (by simp)
    have hall := hkey.punctuation (c := '\x7b') (t := .objectStart) rfl
    refine ⟨"Failed to compile catalog".toList,
      [("status".toList, .number (strtod (Numeral.ofInt 500).text))], ?_⟩
    rw [body_sendError]
    simpa [JsonOf.tokens, JsonOf.memberTokens] using hall
  printable := by
    have hstatus : (Numeral.ofInt 500).text = "500".toList := by decide +kernel
    rw [body_sendError, hstatus]
    simp [quoted]

/-! ### Runs -/

variable {db db' : Option PuppetDb} {hs : List Handled} {h : Handled}

theorem lastCompiled_snoc (certname : Bytes) (start : Option Bytes) (hs : List Handled)
    (h : Handled) : lastCompiled certname start (hs ++ [h]) =
      match h.catalog with
      | some (c, text) => if certname = c then some text else lastCompiled certname start hs
      | none => lastCompiled certname start hs :=
  List.foldl_append ..

namespace PuppetDb

variable {d : PuppetDb} {certname certname' : Bytes}

/-- Exports change no stored catalog. -/
theorem AllActive.storeExports (hactive : d.AllActive) (exports : List (String × VirtualResource)) :
    (d.storeExports exports).AllActive ∧
      (d.storeExports exports).getCatalog certname = d.getCatalog certname := by
  induction exports generalizing d with
  | nil => exact ⟨hactive, rfl⟩
  | cons e exports ih =>
    have hstep : (d.storeExport e).AllActive := hactive.getOrCreateNode
    have hsame : (d.storeExport e).getCatalog certname = d.getCatalog certname :=
      getCatalog_getOrCreateNode hactive
    exact ⟨(ih hstep).1, (ih hstep).2.trans hsame⟩

end PuppetDb

/-- What a compile that does no harm stores. -/
theorem handleCatalog_of_harmless {d : PuppetDb} {q : CatalogRequest} {out : CompileOutcome}
    (hactive : d.AllActive) (hharmless : out.ending.Harmless true) :
    ∃ d', (handleCatalog (some d) q out).2 = some d' ∧ d'.AllActive ∧ ∀ certname,
      d'.getCatalog certname =
        match out.ending with
        | .compiled (some document) =>
          if certname = q.certname then some document.toJson else d.getCatalog certname
        | _ => d.getCatalog certname := by
  have hexports (certname : Bytes) : (d.storeExports out.exports).AllActive ∧
      (d.storeExports out.exports).getCatalog certname = d.getCatalog certname :=
    hactive.storeExports out.exports
  cases hend : out.ending with
  | loaderFailed | noManifest | noCatalog => rw [hend] at hharmless; cases hharmless
  | failed message => rw [hend] at hharmless; cases hharmless.1
  | compiled document =>
    cases document with
    | none =>
      refine ⟨d.storeExports out.exports, ?_, (hexports []).1, fun certname ↦ (hexports certname).2⟩
      rw [handleCatalog, hend]
      rfl
    | some document =>
      obtain ⟨d₁, hd₁, hactive₁, hsame₁⟩ : ∃ d₁,
          (match q.facts with
            | some facts => (d.storeExports out.exports).storeFacts q.certname facts.toText
            | none => d.storeExports out.exports) = d₁ ∧ d₁.AllActive ∧
            ∀ certname, d₁.getCatalog certname = d.getCatalog certname := by
        refine ⟨_, rfl, ?_⟩
        cases q.facts with
        | none => exact ⟨(hexports []).1, fun certname ↦ (hexports certname).2⟩
        | some facts =>
          exact ⟨(hexports []).1.getOrCreateNode, fun certname ↦
            (PuppetDb.getCatalog_getOrCreateNode (hexports []).1).trans (hexports certname).2⟩
      refine ⟨d₁.storeCatalog q.certname document.toJson, ?_, hactive₁.getOrCreateNode,
        fun certname ↦ ?_⟩
      · rw [handleCatalog, hend, ← hd₁]
        rfl
      · rw [PuppetDb.getCatalog_storeCatalog, hsame₁]

/-- A failed compile that did no harm is answered with a well-formed error. -/
theorem isErrorBody_handleCatalog {q : CatalogRequest} {out : CompileOutcome}
    (hharmless : out.ending.Harmless db.isSome)
    (hfail : ∀ document, out.ending ≠ .compiled (some document)) :
    IsErrorBody (handleCatalog db q out).1.body := by
  have hfixed {message : Bytes} (hm : IsSpliceable message) : IsErrorBody (errorJson message) :=
    isErrorBody_errorJson hm.plain hm.printable
  rw [handleCatalog]
  cases hend : out.ending with
  | loaderFailed => exact hfixed ⟨by simp [IsPlain], by simp, by simp⟩
  | noManifest => exact hfixed ⟨by simp [IsPlain], by simp, by simp⟩
  | noCatalog => exact hfixed ⟨by simp [IsPlain], by simp, by simp⟩
  | failed message =>
    rw [hend] at hharmless
    exact isErrorBody_failed hharmless.2
  | compiled document =>
    cases document with
    | none => exact isErrorBody_sendError
    | some document => exact absurd hend (hfail document)

theorem HandlesCatalog.before_eq {site : SiteManifest} {body : Option Bytes}
    (hstep : HandlesCatalog site body db h) : h.before = db := by
  cases hstep <;> rfl

/-- What one request changes, if it does no harm. -/
theorem HandlesCatalog.after_eq {d : PuppetDb} {site : SiteManifest} {body : Option Bytes}
    (hstep : HandlesCatalog site body (some d) h) (hactive : d.AllActive) (hharmless : h.Harmless) :
    ∃ d', h.after = some d' ∧ d'.AllActive ∧ ∀ certname,
      d'.getCatalog certname =
        match h.catalog with
        | some (c, text) => if certname = c then some text else d.getCatalog certname
        | none => d.getCatalog certname := by
  cases hstep with
  | rejected hread => exact ⟨d, rfl, hactive, fun certname ↦ rfl⟩
  | @compiled q out hread hcompile =>
    obtain ⟨d', hafter, hactive', hcatalog⟩ :=
      handleCatalog_of_harmless (q := q) hactive (hharmless q out.ending rfl)
    refine ⟨d', hafter, hactive', fun certname ↦ ?_⟩
    rw [hcatalog, Handled.catalog]
    rcases out.ending with - | - | - | - | (- | document) <;> rfl

theorem HandlesCatalog.answered {site : SiteManifest} {body : Option Bytes}
    (hstep : HandlesCatalog site body db h) (hharmless : h.Harmless) (hfails : h.Fails) :
    IsErrorBody h.response.body := by
  cases hstep with
  | rejected hread => exact absurd hfails.1 Bool.false_ne_true
  | @compiled q out hread hcompile =>
    refine isErrorBody_handleCatalog (hharmless q out.ending rfl) fun document hend ↦ ?_
    have hnone := hfails.2
    simp [Handled.catalog, hend] at hnone

theorem HandlesCatalog.after_none {site : SiteManifest} {body : Option Bytes}
    (hstep : HandlesCatalog site body none h) : h.after = none := by
  cases hstep with
  | rejected hread => rfl
  | @compiled q out hread hcompile =>
    rw [handleCatalog]
    cases out.ending.text <;> rfl

namespace CatalogRun

/-- Nodes stay active. -/
theorem allActive (hrun : CatalogRun db hs db') (hactive : ∀ d ∈ db, d.AllActive)
    (hharmless : ∀ h ∈ hs, h.Harmless) : ∀ d ∈ db', d.AllActive := by
  induction hrun with
  | nil => exact hactive
  | @snoc db' hs h site body hrun hstep ih =>
    have ih := ih fun h' hh' ↦ hharmless h' (List.mem_append_left _ hh')
    have hlast := hharmless h (List.mem_append_right _ List.mem_cons_self)
    cases db' with
    | none => simp [hstep.after_none]
    | some d =>
      obtain ⟨d', hafter, hactive', -⟩ := hstep.after_eq (ih d rfl) hlast
      intro d'' hd''
      rw [hafter] at hd''
      exact Option.some.inj hd'' ▸ hactive'

/-- As long as no compile does harm, PuppetDB holds the catalogs that were compiled last. -/
theorem stored_eq (hrun : CatalogRun db hs db') (hactive : ∀ d ∈ db, d.AllActive)
    (hharmless : ∀ h ∈ hs, h.Harmless) : ∀ d ∈ db, ∃ d' ∈ db', ∀ certname,
      d'.getCatalog certname = lastCompiled certname (d.getCatalog certname) hs := by
  intro d hd
  induction hrun with
  | nil => exact ⟨d, hd, fun certname ↦ rfl⟩
  | @snoc db' hs h site body hrun hstep ih =>
    have hbefore : ∀ h ∈ hs, h.Harmless := fun h' hh' ↦ hharmless h' (List.mem_append_left _ hh')
    have hlast := hharmless h (List.mem_append_right _ List.mem_cons_self)
    obtain ⟨d', hd', hstored⟩ := ih hbefore
    obtain rfl := Option.mem_def.1 hd'
    obtain ⟨d'', hafter, -, hcatalog⟩ :=
      hstep.after_eq (hrun.allActive hactive hbefore d' rfl) hlast
    refine ⟨d'', hafter, fun certname ↦ ?_⟩
    rw [hcatalog, lastCompiled_snoc, hstored]

/-- As long as no compile does harm, every request that was handled was handled by an active
database. -/
theorem exists_handles (hrun : CatalogRun db hs db') (hactive : ∀ d ∈ db, d.AllActive)
    (hharmless : ∀ h ∈ hs, h.Harmless) (hh : h ∈ hs) :
    ∃ site body, HandlesCatalog site body h.before h ∧ ∀ d ∈ h.before, d.AllActive := by
  induction hrun with
  | nil => cases hh
  | @snoc db' hs h' site body hrun hstep ih =>
    have hbefore : ∀ h ∈ hs, h.Harmless := fun h' hh' ↦ hharmless h' (List.mem_append_left _ hh')
    rcases List.mem_append.1 hh with hh | hh
    · exact ih hbefore hh
    · obtain rfl := List.mem_singleton.1 hh
      rw [hstep.before_eq]
      exact ⟨site, body, hstep, hrun.allActive hactive hbefore⟩

/-- The request of a node without facts. -/
def requestOf (certname : Char) : CatalogRequest := ⟨[certname], none, none⟩

/-- Its body. -/
def bodyOf (certname : Char) : Bytes :=
  "\x7b\x22certname\x22:\x22".toList ++ [certname] ++ "\x22\x7d".toList

theorem readCatalogRequest_bodyOf :
    readCatalogRequest (some (bodyOf 'n')) = .ok (requestOf 'n') := by
  have hobserved : (readCatalogRequest (some (bodyOf 'n'))).toOption.map
      (fun q ↦ (q.certname, q.environment, q.facts.isNone)) = some (['n'], none, true) := by
    decide +kernel
  cases hread : readCatalogRequest (some (bodyOf 'n')) with
  | error r => rw [hread] at hobserved; cases hobserved
  | ok q =>
    rw [hread] at hobserved
    obtain ⟨certname, environment, facts⟩ := q
    simp only [Except.toOption, Option.map_some, Option.some.injEq, Prod.mk.injEq,
      Option.isNone_iff_eq_none] at hobserved
    obtain ⟨rfl, rfl, rfl⟩ := hobserved
    rfl

/-- A manifest that fails, with a quote in its message. -/
def failingManifest : List Stmt :=
  [.expression (.funcall "fail" [.value (.string "a\x22b")] none)]

theorem exists_failing : ∃ out, (SiteManifest.loaded World.bare failingManifest).Compiles
    (some .empty) (requestOf 'n') out ∧ out.ending = .failed (some "a\x22b") := by
  obtain ⟨_, env', hrun, hobserved⟩ := exists_ok_of_observed
    (x := (execProgram (World.bare.forRequest (some .empty) (requestOf 'n')) failingManifest).run
      ((World.bare.forRequest (some .empty) (requestOf 'n')).handler 8)
      (Env.forRequest (some .empty) (requestOf 'n')))
    (f := fun env ↦ (env.compilationFailed, env.failureMessage))
    (c := (true, some "a\x22b")) (by decide +kernel)
  obtain ⟨hfailed, hmessage⟩ := Prod.mk.inj hobserved
  have hend : env'.EndsAs (.failed (some "a\x22b")) := ⟨hfailed, hmessage.symm⟩
  exact ⟨_, .executed ⟨8, hrun⟩ hend, rfl⟩

theorem exists_succeeding : ∃ out, (SiteManifest.loaded World.bare []).Compiles
    (some .empty) (requestOf 'n') out ∧ ∃ document, out.ending = .compiled (some document) := by
  obtain ⟨_, env', hrun, hobserved⟩ := exists_ok_of_observed
    (x := (execProgram (World.bare.forRequest (some .empty) (requestOf 'n')) []).run
      ((World.bare.forRequest (some .empty) (requestOf 'n')).handler 2)
      (Env.forRequest (some .empty) (requestOf 'n')))
    (f := fun env ↦ (env.compilationFailed, env.catalog))
    (c := (false, some ⟨"n", "production", [], [], []⟩)) (by decide +kernel)
  obtain ⟨hfailed, hcatalog⟩ := Prod.mk.inj hobserved
  have hend : env'.EndsAs (.compiled (some ⟨"n", "1", "production", [], [], [], []⟩)) :=
    ⟨hfailed, _, hcatalog, fun d hd ↦ by cases hd; exact ⟨rfl, rfl, rfl, rfl, rfl⟩⟩
  exact ⟨_, .executed ⟨2, hrun⟩ hend, _, rfl⟩

end CatalogRun

end PuppetC
