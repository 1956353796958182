import PuppetC.Json.Spliced
import PuppetC.Server.Response
import PuppetC.Support.FileTree

/-!
# Plugin files

The agent asks the server for a listing of the files below the `lib` directories of the modules
(`GET /puppet/v3/file_metadatas/plugins`), and fetches each path of it
(`GET /puppet/v3/file_content/plugins/<path>`), which the server takes below the directory of the
modules.

A file directly in `lib` is listed with its module and `lib` in front of its name, a file further
down by its path below `lib` alone.

## Main definitions

* `scanLibDirectory`, `listPlugins`, `handleFileMetadatasPlugins`: the listing.
* `handlePluginContent`: the answer for a path.
* `ModulesTree`: a directory of modules.
* `ModulesTree.PathsFit`: its paths fit into the buffers of the server.
* `ModulesTree.allEntries`: the entries of all files below the `lib` directories.

## Main results

* `ModulesTree.listPlugins_eq`: where the paths fit, the listing is made of these entries.
* `listPlugins_unique`: the listing does not depend on the fuel.
-/

namespace PuppetC

/-! ### The listing -/

/-- `file_md5`, where `digest` is MD5. -/
def fileMd5 (digest : Bytes → List UInt8) (content : Bytes) : Bytes :=
  (digest content).flatMap fun b ↦ [Nat.digitChar (b.toNat / 16), Nat.digitChar (b.toNat % 16)]

/-- An entry of the listing: the path of the file on the server, the path it is listed by and its
checksum. -/
structure PluginEntry where
  file : Bytes
  path : Bytes
  checksum : Bytes
  deriving DecidableEq

/-- What an entry is meant to say. -/
def PluginEntry.document (e : PluginEntry) : Json :=
  .object [("path".toList, .string e.path),
    ("checksum".toList, .object [("type".toList, .string "md5".toList),
      ("value".toList, .string ("\x7bmd5\x7d".toList ++ e.checksum))]),
    ("type".toList, .string "file".toList)]

/-- The text of an entry, without the comma in front of it. -/
def PluginEntry.text (e : PluginEntry) : Bytes :=
  "\x7b\x22path\x22:\x22".toList ++ e.path ++
    "\x22,\x22checksum\x22:\x7b\x22type\x22:\x22md5\x22,\x22value\x22:\x22\x7bmd5\x7d".toList ++
    e.checksum ++ "\x22\x7d,\x22type\x22:\x22file\x22\x7d".toList

/-- The listing that is being built: the entries that are in `json_buf`, and those that found no
room in it. -/
structure PluginListing where
  entries : List PluginEntry
  skipped : List PluginEntry

namespace PluginListing

/-- The entries with commas between them. -/
def entriesText : Bool → List PluginEntry → Bytes
  | _, [] => []
  | first, e :: es => (if first then [] else [',']) ++ e.text ++ entriesText false es

/-- The contents of `json_buf` up to `buf_pos`. -/
def text (l : PluginListing) : Bytes := '[' :: entriesText true l.entries

/-- `buf_size`. -/
def bufSize : ℕ := 1024 * 1024

/-- An entry is written where there is room for it. -/
def add (l : PluginListing) (e : PluginEntry) : PluginListing :=
  let needed := (if l.entries.isEmpty then 0 else 1) + e.text.length
  if l.text.length + needed < bufSize - 1 then { l with entries := l.entries ++ [e] }
  else { l with skipped := l.skipped ++ [e] }

/-- The body of the response. -/
def body (l : PluginListing) : Bytes := l.text ++ [']']

/-- What the listing is meant to say. -/
def document (l : PluginListing) : Json := .array (l.entries.map PluginEntry.document)

end PluginListing

/-- A name that starts with a dot. -/
def isHidden (name : Bytes) : Bool := name.head? = some '.'

section Scan

variable (fs : FileSystem Bytes) (digest : Bytes → List UInt8)

/-- `scan_lib_directory`. A path that is cut to the size of its buffer may lead back to a
directory above, so the recursion may not end. -/
def scanLibDirectory (basePath : Bytes) : ℕ → Bytes → PluginListing → Option PluginListing
  | 0, _, _ => none
  | fuel + 1, relPath, l =>
    let fullPath := cutTo 4096 (if relPath ≠ [] then basePath ++ '/' :: relPath else basePath)
    match fs.resolve fullPath with
    | some (.directory es) =>
      es.foldlM (fun l entry ↦
        if isHidden entry.1 then some l
        else
          let entryPath := cutTo 4096 (fullPath ++ '/' :: entry.1)
          let entryRel := cutTo 4096 (if relPath ≠ [] then relPath ++ '/' :: entry.1 else entry.1)
          match fs.resolve entryPath with
          | some (.directory _) => scanLibDirectory basePath fuel entryRel l
          | some (.file content) => some (l.add ⟨entryPath, entryRel, fileMd5 digest content⟩)
          | _ => some l) l
    | _ => some l

/-- The round of `handle_file_metadatas_plugins` for an entry of a `lib` directory. -/
def scanLibEntry (fuel : ℕ) (moduleName libPath : Bytes) (l : PluginListing)
    (entry : Bytes × FileNode Bytes) : Option PluginListing :=
  if isHidden entry.1 then some l
  else
    let entryPath := cutTo 4096 (libPath ++ '/' :: entry.1)
    match fs.resolve entryPath with
    | some (.directory _) => scanLibDirectory fs digest libPath fuel entry.1 l
    | some (.file content) =>
      some (l.add ⟨entryPath, moduleName ++ "/lib/".toList ++ entry.1, fileMd5 digest content⟩)
    | _ => some l

/-- The round of `handle_file_metadatas_plugins` for an entry of the directory of modules. -/
def scanModule (fuel : ℕ) (modulesPath : Bytes) (l : PluginListing)
    (entry : Bytes × FileNode Bytes) : Option PluginListing :=
  if isHidden entry.1 then some l
  else
    let modulePath := cutTo 4096 (modulesPath ++ '/' :: entry.1)
    match fs.resolve modulePath with
    | some (.directory _) =>
      let libPath := cutTo 4096 (modulePath ++ "/lib".toList)
      match fs.resolve libPath with
      | some (.directory es) => es.foldlM (scanLibEntry fs digest fuel entry.1 libPath) l
      | _ => some l
    | _ => some l

/-- The loops of `handle_file_metadatas_plugins`, where the directory of modules can be opened. -/
def listPlugins (fuel : ℕ) (modulesPath : Bytes) : Option (Option PluginListing) :=
  match fs.resolve modulesPath with
  | some (.directory modules) =>
    (modules.foldlM (scanModule fs digest fuel modulesPath) ⟨[], []⟩).map some
  | _ => some none

/-- `handle_file_metadatas_plugins`. -/
def handleFileMetadatasPlugins (fuel : ℕ) (modulesPath : Option Bytes) : Option HttpResponse :=
  match modulesPath with
  | none => some (sendError 500 "Modules path not configured".toList)
  | some path => (listPlugins fs digest fuel path).map fun listing ↦
    match listing with
    | none => sendError 500 "Cannot open modules directory".toList
    | some l => ⟨200, l.body⟩

end Scan

/-! ### Serving a file -/

/-- `strstr(s, "..") != NULL`. -/
def hasDotDot : Bytes → Bool
  | '.' :: '.' :: _ => true
  | _ :: s => hasDotDot s
  | [] => false

theorem hasDotDot_append_slash (s s' : Bytes) :
    hasDotDot (s ++ '/' :: s') = (hasDotDot s || hasDotDot s') := by
  fun_induction hasDotDot s with
  | case1 => simp [hasDotDot]
  | case2 c s hne ih =>
    rw [List.cons_append, hasDotDot]
    · exact ih
    · intro rest hc hrest
      cases s with
      | nil => exact absurd (List.cons.inj hrest).1 (by decide)
      | cons d s =>
        obtain ⟨rfl, -⟩ := List.cons.inj hrest
        exact hne s hc rfl
  | case3 => simp [hasDotDot]

/-- The start of the URLs of plugin files. -/
def pluginPrefix : Bytes := "/puppet/v3/file_content/plugins/".toList

/-- The size up to which plugin files are served. -/
def maxPluginSize : ℕ := 10 * 1024 * 1024

/-- `handle_plugin_content`. A directory can be opened but not be read. -/
def handlePluginContent (fs : FileSystem Bytes) (modulesPath : Option Bytes) (url : Bytes) :
    HttpResponse :=
  let relPath := url.drop pluginPrefix.length
  if ¬ pluginPrefix.isPrefixOf url then sendError 400 "Invalid plugin URL format".toList
  else if relPath = [] then sendError 400 "Missing file path".toList
  else if hasDotDot relPath then sendError 403 "Path traversal not allowed".toList
  else match modulesPath with
    | none => sendError 500 "Modules path not configured".toList
    | some path => match fs.resolve (cutTo 4096 (path ++ '/' :: relPath)) with
      | none | some .socket => sendError 404 "File not found".toList
      | some (.directory _) => sendError 500 "Failed to read file".toList
      | some (.file content) =>
        if maxPluginSize < content.length then sendError 500 "File too large".toList
        else ⟨200, content⟩

/-! ### Trees of modules -/

/-- A directory of modules that the server is given, whose names have no `..`. -/
structure ModulesTree where
  fs : FileSystem Bytes
  modulesPath : Bytes
  modules : List (Bytes × FileNode Bytes)
  above : List (FileNode Bytes)
  resolves : fs.resolveStack modulesPath = some (.directory modules :: above)
  isTree : (FileNode.directory modules).IsTree
  noDotDot : ∀ names n, (FileNode.directory modules).at? names = some n →
    ∀ name ∈ names, hasDotDot name = false

namespace ModulesTree

variable (t : ModulesTree) (digest : Bytes → List UInt8)

/-- The directory of modules. -/
def root : FileNode Bytes := .directory t.modules

/-- The path of what stands at names below the directory of modules. -/
def pathOf (names : List Bytes) : Bytes := t.modulesPath ++ '/' :: joinPath names

/-- The names that lead to a file below the `lib` directory of a module. -/
def libNames (moduleName : Bytes) (names : List Bytes) : List Bytes :=
  moduleName :: "lib".toList :: names

/-- The names by which a file below a `lib` directory is listed. -/
def listedNames (moduleName : Bytes) (names : List Bytes) : List Bytes :=
  if names.length = 1 then libNames moduleName names else names

/-- Every path below the directory of modules fits into its buffer, and so does the path of `lib`
in each module. -/
structure PathsFit : Prop where
  nodes : ∀ names n, t.root.at? names = some n → (t.pathOf names).length < 4096
  libs : ∀ moduleName n, t.root.at? [moduleName] = some n →
    (t.pathOf (libNames moduleName [])).length < 4096

/-! ### The paths of the files -/

variable {t digest}

theorem pathOf_append {names names' : List Bytes} (h : names ≠ []) (h' : names' ≠ []) :
    t.pathOf (names ++ names') = t.pathOf names ++ '/' :: joinPath names' := by
  rw [pathOf, pathOf, joinPath_append h h', List.append_assoc, List.cons_append]

theorem isFileName {names : List Bytes} {n : FileNode Bytes} (h : t.root.at? names = some n) :
    ∀ name ∈ names, IsFileName name :=
  t.isTree.isFileName h

theorem cutTo_pathOf (hfit : t.PathsFit) {names : List Bytes} {n : FileNode Bytes}
    (h : t.root.at? names = some n) : cutTo 4096 (t.pathOf names) = t.pathOf names :=
  cutTo_of_lt (hfit.nodes names n h)

theorem resolve_pathOf (hfit : t.PathsFit) {names : List Bytes} {n : FileNode Bytes}
    (h : t.root.at? names = some n) (hne : names ≠ []) :
    t.fs.resolve (t.pathOf names) = some n :=
  (FileSystem.resolve_join t.resolves hne (isFileName h) (hfit.nodes names n h)).trans h

theorem length_joinPath_lt (hfit : t.PathsFit) {moduleName : Bytes} {names : List Bytes}
    {n : FileNode Bytes} (h : t.root.at? (libNames moduleName names) = some n) (hne : names ≠ []) :
    (joinPath names).length < 4096 := by
  have hlen := hfit.nodes _ n h
  rw [pathOf, libNames, joinPath_cons (List.cons_ne_nil _ _), joinPath_cons hne] at hlen
  simp only [List.length_append, List.length_cons] at hlen
  omega

theorem joinPath_ne_nil {names : List Bytes} (hne : names ≠ [])
    (h : ∀ name ∈ names, IsFileName name) : joinPath names ≠ [] := by
  obtain ⟨name, names, rfl⟩ := List.exists_cons_of_ne_nil hne
  obtain ⟨c, cs, hc⟩ := List.exists_cons_of_ne_nil (h name List.mem_cons_self).ne_nil
  exact List.ne_nil_of_mem (mem_joinPath_of_mem List.mem_cons_self (hc ▸ List.mem_cons_self))

end ModulesTree

/-! ### The listing, file by file -/

/-- Rounds that each put some items into a listing. -/
theorem foldlM_eq_some_foldl {α β γ : Type} {f : β → α → Option β} {put : β → γ → β}
    {g : α → List γ} {xs : List α} (h : ∀ b, ∀ x ∈ xs, f b x = some ((g x).foldl put b)) (b : β) :
    xs.foldlM f b = some ((xs.flatMap g).foldl put b) := by
  induction xs generalizing b with
  | nil => rfl
  | cons x xs ih =>
    rw [List.foldlM_cons, h b x List.mem_cons_self, List.flatMap_cons, List.foldl_append]
    exact ih (fun b y hy ↦ h b y (List.mem_cons_of_mem _ hy)) _

namespace ModulesTree

variable (t : ModulesTree) (digest : Bytes → List UInt8)

/-- The entry of a file below the `lib` directory of a module. -/
def entryOf (moduleName : Bytes) (f : List Bytes × Bytes) : PluginEntry :=
  ⟨t.pathOf (libNames moduleName f.1), joinPath (listedNames moduleName f.1),
    fileMd5 digest f.2⟩

/-- The files below the `lib` directory of a module. -/
def libFiles (entry : Bytes × FileNode Bytes) : List (List Bytes × Bytes) :=
  if isHidden entry.1 then []
  else match entry.2.at? ["lib".toList] with
    | some (.directory es) => FileNode.filesAmong (fun name ↦ !isHidden name) es
    | _ => []

/-- The entries of all files below the `lib` directories. -/
def allEntries : List PluginEntry :=
  t.modules.flatMap fun entry ↦ (libFiles entry).map (t.entryOf digest entry.1)

variable {t digest}

variable (digest) in
theorem scanLibDirectory_eq (hfit : t.PathsFit) {moduleName : Bytes} {fuel : ℕ}
    {names : List Bytes} {es : List (Bytes × FileNode Bytes)} (hne : names ≠ [])
    (hat : t.root.at? (libNames moduleName names) = some (.directory es))
    (hfuel : FileNode.heightAmong es < fuel) (l : PluginListing) :
    scanLibDirectory t.fs digest (t.pathOf (libNames moduleName [])) fuel (joinPath names) l =
      some (((FileNode.filesAmong (fun name ↦ !isHidden name) es).map fun f ↦
        t.entryOf digest moduleName (names ++ f.1, f.2)).foldl PluginListing.add l) := by
  induction fuel generalizing names es l with
  | zero => omega
  | succ fuel ih =>
    have hnames : ∀ name ∈ names, IsFileName name := fun name hname ↦
      isFileName hat name (List.mem_cons_of_mem _ (List.mem_cons_of_mem _ hname))
    have hrel : joinPath names ≠ [] := joinPath_ne_nil hne hnames
    have hfull : t.pathOf (libNames moduleName []) ++ '/' :: joinPath names =
        t.pathOf (libNames moduleName names) := (pathOf_append (List.cons_ne_nil _ _) hne).symm
    rw [scanLibDirectory, if_pos hrel, hfull, cutTo_pathOf hfit hat]
    dsimp only
    rw [resolve_pathOf hfit hat (List.cons_ne_nil _ _), FileNode.filesAmong_eq_flatMap,
      List.map_flatMap]
    refine foldlM_eq_some_foldl (fun l e he ↦ ?_) l
    have hentry : t.root.at? (libNames moduleName (names ++ [e.1])) = some e.2 := by
      change t.root.at? (libNames moduleName names ++ [e.1]) = _
      rw [FileNode.at?_append, hat, Option.bind_some, FileNode.at?,
        (t.isTree.of_at? hat).child?_eq he]
      rfl
    have hpath : t.pathOf (libNames moduleName names) ++ '/' :: e.1 =
        t.pathOf (libNames moduleName (names ++ [e.1])) := by
      have happend : t.pathOf (libNames moduleName names ++ [e.1]) = _ :=
        pathOf_append (List.cons_ne_nil _ _) (List.cons_ne_nil e.1 [])
      rw [joinPath_singleton] at happend
      exact happend.symm
    have hjoin : joinPath names ++ '/' :: e.1 = joinPath (names ++ [e.1]) := by
      rw [joinPath_append hne (List.cons_ne_nil _ _), joinPath_singleton]
    have hne' : names ++ [e.1] ≠ [] := List.append_ne_nil_of_right_ne_nil _ (List.cons_ne_nil _ _)
    have hshort := length_joinPath_lt hfit hentry hne'
    cases hhidden : isHidden e.1 with
    | true => simp
    | false =>
      rw [if_neg Bool.false_ne_true, hpath, cutTo_pathOf hfit hentry, if_pos hrel, hjoin,
        cutTo_of_lt hshort]
      rw [resolve_pathOf hfit hentry (List.cons_ne_nil _ _), Bool.not_false, if_pos rfl]
      cases hnode : e.2 with
      | socket => simp [FileNode.filesBelow]
      | file content =>
        have hlisted : listedNames moduleName (names ++ [e.1]) = names ++ [e.1] := by
          have := List.length_pos_iff.2 hne
          rw [listedNames, if_neg (by rw [List.length_append, List.length_singleton]; omega)]
        simp [FileNode.filesBelow, entryOf, hlisted]
      | directory es' =>
        rw [hnode] at hentry
        have hheight := FileNode.height_le_of_mem he
        rw [hnode, FileNode.height] at hheight
        refine (ih hne' hentry (by omega) l).trans ?_
        simp [FileNode.filesBelow, Function.comp_def]

theorem scanLibEntry_eq (hfit : t.PathsFit) {moduleName : Bytes} {fuel : ℕ}
    {es : List (Bytes × FileNode Bytes)}
    (hat : t.root.at? (libNames moduleName []) = some (.directory es))
    (hfuel : FileNode.heightAmong es ≤ fuel) (l : PluginListing) {e : Bytes × FileNode Bytes}
    (he : e ∈ es) :
    scanLibEntry t.fs digest fuel moduleName (t.pathOf (libNames moduleName [])) l e =
      some (((if !isHidden e.1 then
        (e.2.filesBelow fun name ↦ !isHidden name).map fun f ↦ (e.1 :: f.1, f.2)
        else []).map (t.entryOf digest moduleName)).foldl PluginListing.add l) := by
  have hentry : t.root.at? (libNames moduleName [e.1]) = some e.2 := by
    change t.root.at? (libNames moduleName [] ++ [e.1]) = _
    rw [FileNode.at?_append, hat, Option.bind_some, FileNode.at?,
      (t.isTree.of_at? hat).child?_eq he]
    rfl
  have hpath : t.pathOf (libNames moduleName []) ++ '/' :: e.1 =
      t.pathOf (libNames moduleName [e.1]) := by
    have happend : t.pathOf (libNames moduleName [] ++ [e.1]) = _ :=
      pathOf_append (List.cons_ne_nil _ _) (List.cons_ne_nil e.1 [])
    rw [joinPath_singleton] at happend
    exact happend.symm
  rw [scanLibEntry]
  cases hhidden : isHidden e.1 with
  | true => simp
  | false =>
    rw [if_neg Bool.false_ne_true, hpath, cutTo_pathOf hfit hentry]
    dsimp only
    rw [resolve_pathOf hfit hentry (List.cons_ne_nil _ _), Bool.not_false, if_pos rfl]
    cases hnode : e.2 with
    | socket => simp [FileNode.filesBelow]
    | file content =>
      have hlisted : joinPath (listedNames moduleName [e.1]) =
          moduleName ++ "/lib/".toList ++ e.1 := by
        rw [listedNames, if_pos List.length_singleton, libNames,
          joinPath_cons (List.cons_ne_nil _ _), joinPath_cons (List.cons_ne_nil _ _),
          joinPath_singleton]
        simp
      simp [FileNode.filesBelow, entryOf, hlisted]
    | directory es' =>
      rw [hnode] at hentry
      have hheight := FileNode.height_le_of_mem he
      rw [hnode, FileNode.height] at hheight
      have hheight' : FileNode.heightAmong es' < fuel := by omega
      have hscan := scanLibDirectory_eq digest hfit (List.cons_ne_nil e.1 []) hentry hheight' l
      rw [joinPath_singleton] at hscan
      refine hscan.trans ?_
      simp [FileNode.filesBelow, Function.comp_def]

theorem isFileName_lib : IsFileName "lib".toList := by
  constructor <;> simp

variable (digest) in
theorem scanModule_eq (hfit : t.PathsFit) {fuel : ℕ} {e : Bytes × FileNode Bytes}
    (he : e ∈ t.modules) (hfuel : t.root.height ≤ fuel) (l : PluginListing) :
    scanModule t.fs digest fuel t.modulesPath l e =
      some (((libFiles e).map (t.entryOf digest e.1)).foldl PluginListing.add l) := by
  have hentry : t.root.at? [e.1] = some e.2 := by
    rw [FileNode.at?, root, t.isTree.child?_eq he]
    rfl
  have hlib : t.root.at? (libNames e.1 []) = e.2.at? ["lib".toList] := by
    change t.root.at? ([e.1] ++ ["lib".toList]) = _
    rw [FileNode.at?_append, hentry, Option.bind_some]
  have hpath : t.modulesPath ++ '/' :: e.1 = t.pathOf [e.1] := by
    rw [pathOf, joinPath_singleton]
  have hlibPath : t.pathOf [e.1] ++ "/lib".toList = t.pathOf (libNames e.1 []) := by
    have happend : t.pathOf ([e.1] ++ ["lib".toList]) = _ :=
      pathOf_append (List.cons_ne_nil _ _) (List.cons_ne_nil "lib".toList [])
    rw [joinPath_singleton] at happend
    exact happend.symm
  rw [scanModule, libFiles]
  cases hhidden : isHidden e.1 with
  | true => simp
  | false =>
    rw [if_neg Bool.false_ne_true, if_neg Bool.false_ne_true, hpath, cutTo_pathOf hfit hentry]
    dsimp only
    rw [resolve_pathOf hfit hentry (List.cons_ne_nil _ _)]
    cases hnode : e.2 with
    | socket | file => simp [FileNode.at?, FileNode.child?]
    | directory es' =>
      rw [hnode] at hlib
      have hlen := hfit.libs e.1 e.2 hentry
      dsimp only
      rw [hlibPath, cutTo_of_lt hlen]
      have hresolve : t.fs.resolve (t.pathOf (libNames e.1 [])) =
          (FileNode.directory es').at? ["lib".toList] := by
        refine (FileSystem.resolve_join t.resolves (List.cons_ne_nil _ _) ?_ hlen).trans hlib
        refine List.forall_mem_cons.2 ⟨isFileName hentry _ List.mem_cons_self, ?_⟩
        exact List.forall_mem_singleton.2 isFileName_lib
      rw [hresolve]
      cases hat : (FileNode.directory es').at? ["lib".toList] with
      | none => rfl
      | some n =>
        rw [hat] at hlib
        cases n with
        | socket | file => rfl
        | directory es =>
          have hheight : FileNode.heightAmong es ≤ fuel := by
            have hle := FileNode.height_at?_le hlib
            rw [FileNode.height] at hle
            omega
          dsimp only
          rw [FileNode.filesAmong_eq_flatMap, List.map_flatMap]
          refine foldlM_eq_some_foldl (fun l e' he' ↦ ?_) l
          exact scanLibEntry_eq hfit hlib hheight l he'

variable (digest) in
/-- Where the paths fit, the entries of all files are put into the listing. -/
theorem listPlugins_eq (hfit : t.PathsFit) {fuel : ℕ} (hfuel : t.root.height ≤ fuel) :
    listPlugins t.fs digest fuel t.modulesPath =
      some (some ((t.allEntries digest).foldl PluginListing.add ⟨[], []⟩)) := by
  have hroot : t.fs.resolve t.modulesPath = some (.directory t.modules) := by
    rw [FileSystem.resolve, t.resolves]
    rfl
  have hfold := foldlM_eq_some_foldl
    (fun l e he ↦ scanModule_eq digest hfit he hfuel l) (⟨[], []⟩ : PluginListing)
  rw [listPlugins, hroot]
  dsimp only
  rw [hfold]
  rfl

end ModulesTree

/-! ### More fuel -/

/-- Rounds that end, and give the same with more fuel, end with the same. -/
theorem foldlM_eq_some_mono {α β : Type} {f g : β → α → Option β}
    (h : ∀ b x b', f b x = some b' → g b x = some b') {xs : List α} {b b' : β}
    (hf : xs.foldlM f b = some b') : xs.foldlM g b = some b' := by
  induction xs generalizing b with
  | nil => exact hf
  | cons x xs ih =>
    rw [List.foldlM_cons] at hf ⊢
    obtain ⟨b₁, h₁, hf⟩ := Option.bind_eq_some_iff.1 hf
    exact Option.bind_eq_some_iff.2 ⟨b₁, h b x b₁ h₁, ih hf⟩

section Fuel

variable {fs : FileSystem Bytes} {digest : Bytes → List UInt8}

theorem scanLibDirectory_succ {basePath : Bytes} {fuel : ℕ} {relPath : Bytes}
    {l l' : PluginListing} (h : scanLibDirectory fs digest basePath fuel relPath l = some l') :
    scanLibDirectory fs digest basePath (fuel + 1) relPath l = some l' := by
  induction fuel generalizing relPath l l' with
  | zero => cases h
  | succ fuel ih =>
    rw [scanLibDirectory] at h ⊢
    dsimp only at h ⊢
    split at h
    · refine foldlM_eq_some_mono (fun l e l' h ↦ ?_) h
      by_cases hhidden : isHidden e.1
      · rwa [if_pos hhidden] at h ⊢
      · rw [if_neg hhidden] at h ⊢
        split at h
        · exact ih h
        · exact h
        · exact h
    · exact h

theorem scanLibDirectory_mono {basePath : Bytes} {fuel fuel' : ℕ} (hle : fuel ≤ fuel')
    {relPath : Bytes} {l l' : PluginListing}
    (h : scanLibDirectory fs digest basePath fuel relPath l = some l') :
    scanLibDirectory fs digest basePath fuel' relPath l = some l' := by
  induction hle with
  | refl => exact h
  | step _ ih => exact scanLibDirectory_succ ih

theorem listPlugins_mono {modulesPath : Bytes} {fuel fuel' : ℕ} (hle : fuel ≤ fuel')
    {l : Option PluginListing} (h : listPlugins fs digest fuel modulesPath = some l) :
    listPlugins fs digest fuel' modulesPath = some l := by
  rw [listPlugins] at h ⊢
  split at h
  · obtain ⟨l', hl', rfl⟩ := Option.map_eq_some_iff.1 h
    refine Option.map_eq_some_iff.2 ⟨l', foldlM_eq_some_mono (fun l e l' h ↦ ?_) hl', rfl⟩
    rw [scanModule] at h ⊢
    by_cases hhidden : isHidden e.1
    · rwa [if_pos hhidden] at h ⊢
    · rw [if_neg hhidden] at h ⊢
      dsimp only at h ⊢
      split at h
      · split at h
        · refine foldlM_eq_some_mono (fun l e l' h ↦ ?_) h
          rw [scanLibEntry] at h ⊢
          by_cases hhidden : isHidden e.1
          · rwa [if_pos hhidden] at h ⊢
          · rw [if_neg hhidden] at h ⊢
            dsimp only at h ⊢
            split at h
            · exact scanLibDirectory_mono hle h
            · exact h
            · exact h
        · exact h
      · exact h
  · exact h

/-- The listing does not depend on the fuel. -/
theorem listPlugins_unique {modulesPath : Bytes} {fuel fuel' : ℕ} {l l' : Option PluginListing}
    (h : listPlugins fs digest fuel modulesPath = some l)
    (h' : listPlugins fs digest fuel' modulesPath = some l') : l = l' := by
  have h₁ := listPlugins_mono (Nat.le_max_left fuel fuel') h
  have h₂ := listPlugins_mono (Nat.le_max_right fuel fuel') h'
  exact Option.some.inj (h₁.symm.trans h₂)

end Fuel

end PuppetC
