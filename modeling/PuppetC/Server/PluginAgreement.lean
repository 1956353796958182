import PuppetC.Server.PluginSync

/-!
# Whether the listing of plugins agrees with what is served

What is listed should be what is served: every path of the listing, with the content of the listed
checksum, and every file below the `lib` directories under a path of its own, in a response that
is well-formed JSON for every name.

A file in a directory below `lib` is listed by its path below `lib`, without the module, and what
is served for that path is another file or none; and two modules list different files by one path.
Names are put into the response as they are, and files that are too large to be served are listed
all the same. So the listing agrees with what is served under a condition on the files.

## Main definitions

* `ModulesTree.LibFile`: the files that are to be listed.
* `ModulesTree.Agrees`: what is listed is what is served.
* `ModulesTree.Servable`: the condition on the files.

## Main results

* `PluginListing.wellFormed_iff`: when the response is well-formed.
* `ModulesTree.agrees_iff_servable`: where the paths fit into the buffers, the condition is enough,
  and it is needed if the listing fits as well.
-/

namespace PuppetC

namespace ModulesTree

variable (t : ModulesTree) (digest : Bytes → List UInt8)

/-- A file stands below the `lib` directory of a module, and nothing on the way to it is
hidden. -/
structure LibFile (moduleName : Bytes) (names : List Bytes) (content : Bytes) : Prop where
  ne_nil : names ≠ []
  atNames : t.root.at? (libNames moduleName names) = some (.file content)
  visibleModule : isHidden moduleName = false
  visible : ∀ name ∈ names, isHidden name = false

/-- The listing fits into its buffer. -/
def ListingFits : Prop :=
  ∀ fuel l, listPlugins t.fs digest fuel t.modulesPath = some (some l) → l.skipped = []

/-- What a listing should be: well-formed JSON that says what it is meant to say; every path in it
is served with the content whose checksum is listed; different files have different paths; and
every file below a `lib` directory is listed, if there is room for all. -/
structure ListingAgrees (l : PluginListing) : Prop where
  wellFormed : jsonParse l.body = .ok l.document ∧ ∀ c ∈ l.body, ' ' ≤ c
  served : ∀ e ∈ l.entries, ∃ content,
    handlePluginContent t.fs (some t.modulesPath) (pluginPrefix ++ e.path) = ⟨200, content⟩ ∧
      fileMd5 digest content = e.checksum
  distinct : ∀ e ∈ l.entries, ∀ e' ∈ l.entries, e.path = e'.path → e.file = e'.file
  complete : l.skipped = [] → ∀ moduleName names content, t.LibFile moduleName names content →
    ∃ e ∈ l.entries, e.file = t.pathOf (libNames moduleName names)

/-- The files are listed, and every listing is as it should be. -/
def Agrees : Prop :=
  (∃ fuel l, listPlugins t.fs digest fuel t.modulesPath = some (some l)) ∧
    ∀ fuel l, listPlugins t.fs digest fuel t.modulesPath = some (some l) →
      t.ListingAgrees digest l

/-- The condition on the files below the `lib` directories: the names they are listed by have no
quote, backslash or control character; a file directly in `lib` is small enough to be served; for
a file further down, there is a file of the same checksum that is small enough at its path below
`lib`, taken from the directory of modules; and no two files are listed by the same names. -/
structure Servable : Prop where
  plain : ∀ moduleName names content, t.LibFile moduleName names content →
    ∀ name ∈ listedNames moduleName names, IsPlain name ∧ ∀ c ∈ name, ' ' ≤ c
  small : ∀ moduleName name content, t.LibFile moduleName [name] content →
    content.length ≤ maxPluginSize
  mirrored : ∀ moduleName names content, t.LibFile moduleName names content → names.length ≠ 1 →
    ∃ content', t.root.at? names = some (.file content') ∧ content'.length ≤ maxPluginSize ∧
      fileMd5 digest content' = fileMd5 digest content
  apart : ∀ m names c m' names' c', t.LibFile m names c → t.LibFile m' names' c' →
    listedNames m names = listedNames m' names' → m = m' ∧ names = names'

/-! ### The entries that are written -/

end ModulesTree

theorem PluginListing.foldl_add (es : List PluginEntry) (l : PluginListing) :
    (∀ e ∈ (es.foldl PluginListing.add l).entries, e ∈ l.entries ∨ e ∈ es) ∧
      ((es.foldl PluginListing.add l).skipped = [] →
        l.skipped = [] ∧ (es.foldl PluginListing.add l).entries = l.entries ++ es) := by
  induction es generalizing l with
  | nil => simp
  | cons e es ih =>
    obtain ⟨hsub, hall⟩ := ih (l.add e)
    rw [List.foldl_cons]
    have hadd : ((l.add e).entries = l.entries ++ [e] ∧ (l.add e).skipped = l.skipped) ∨
        ((l.add e).entries = l.entries ∧ (l.add e).skipped = l.skipped ++ [e]) := by
      unfold PluginListing.add
      dsimp only
      by_cases hroom : l.text.length + ((if l.entries.isEmpty then 0 else 1) + e.text.length) <
          bufSize - 1
      · rw [if_pos hroom]
        exact .inl ⟨rfl, rfl⟩
      · rw [if_neg hroom]
        exact .inr ⟨rfl, rfl⟩
    rcases hadd with ⟨hentries, hskipped⟩ | ⟨hentries, hskipped⟩
    · rw [hentries] at hsub hall
      rw [hskipped] at hall
      refine ⟨fun x hx ↦ ?_, fun h ↦ ?_⟩
      · rcases hsub x hx with h | h
        · rcases List.mem_append.1 h with h | h
          · exact .inl h
          · exact .inr (List.mem_singleton.1 h ▸ List.mem_cons_self)
        · exact .inr (List.mem_cons_of_mem _ h)
      · obtain ⟨hnil, heq⟩ := hall h
        exact ⟨hnil, by rw [heq, List.append_assoc, List.singleton_append]⟩
    · rw [hentries] at hsub
      rw [hskipped] at hall
      refine ⟨fun x hx ↦ ?_, fun h ↦ absurd (hall h).1 (by simp)⟩
      rcases hsub x hx with h | h
      · exact .inl h
      · exact .inr (List.mem_cons_of_mem _ h)

namespace ModulesTree

variable {t : ModulesTree} {digest : Bytes → List UInt8}

/-- The files of a module are those below its `lib` directory. -/
theorem mem_libFiles_iff {m : Bytes × FileNode Bytes} (hm : m ∈ t.modules) {names : List Bytes}
    {content : Bytes} : (names, content) ∈ libFiles m ↔ t.LibFile m.1 names content := by
  have hentry : t.root.at? [m.1] = some m.2 := by
    rw [FileNode.at?, root, t.isTree.child?_eq hm]
    rfl
  have hat : t.root.at? (libNames m.1 names) =
      (m.2.at? ["lib".toList]).bind fun n ↦ n.at? names := by
    change t.root.at? ([m.1] ++ (["lib".toList] ++ names)) = _
    rw [FileNode.at?_append, hentry, Option.bind_some, FileNode.at?_append]
  have htree : m.2.IsTree := t.isTree.of_at? hentry
  rw [libFiles]
  cases hhidden : isHidden m.1 with
  | true =>
    refine iff_of_false (by simp) fun h ↦ ?_
    exact absurd (hhidden.symm.trans h.visibleModule) (by decide)
  | false =>
    rw [if_neg Bool.false_ne_true]
    cases hlib : m.2.at? ["lib".toList] with
    | none =>
      rw [hlib, Option.bind_none] at hat
      exact iff_of_false (by simp) fun h ↦ by simpa [hat] using h.atNames
    | some n =>
      rw [hlib, Option.bind_some] at hat
      cases n with
      | socket | file =>
        refine iff_of_false (by simp) fun h ↦ ?_
        have hfile := hat.symm.trans h.atNames
        cases names with
        | nil => exact h.ne_nil rfl
        | cons name names => simp [FileNode.at?, FileNode.child?] at hfile
      | directory es =>
        have hmem : (names, content) ∈
              (FileNode.directory es).filesBelow (fun name ↦ !isHidden name) ↔
            (FileNode.directory es).at? names = some (.file content) ∧
              ∀ name ∈ names, !isHidden name :=
          FileNode.mem_filesBelow_iff (htree.of_at? hlib)
        rw [FileNode.filesBelow, ← hat] at hmem
        dsimp only
        constructor
        · intro h
          obtain ⟨hatNames, hvisible⟩ := hmem.1 h
          obtain ⟨e, -, rest, rfl, -⟩ := FileNode.mem_filesAmong_iff.1 h
          exact ⟨List.cons_ne_nil _ _, hatNames, hhidden, by simpa using hvisible⟩
        · intro h
          exact hmem.2 ⟨h.atNames, by simpa using h.visible⟩

/-- The entries are those of the files below the `lib` directories. -/
theorem mem_allEntries_iff {e : PluginEntry} :
    e ∈ t.allEntries digest ↔ ∃ moduleName names content,
      t.LibFile moduleName names content ∧ e = t.entryOf digest moduleName (names, content) := by
  simp only [allEntries, List.mem_flatMap, List.mem_map]
  constructor
  · rintro ⟨m, hm, ⟨names, content⟩, hf, rfl⟩
    exact ⟨m.1, names, content, (mem_libFiles_iff hm).1 hf, rfl⟩
  · rintro ⟨moduleName, names, content, hfile, rfl⟩
    have hat := hfile.atNames
    rw [libNames, FileNode.at?] at hat
    obtain ⟨n, hn, -⟩ := Option.bind_eq_some_iff.1 hat
    have hm : (moduleName, n) ∈ t.modules := FileNode.mem_of_child?_eq hn
    exact ⟨(moduleName, n), hm, (names, content), (mem_libFiles_iff hm).2 hfile, rfl⟩

/-! ### What is served -/

theorem LibFile.isFileName {moduleName : Bytes} {names : List Bytes} {content : Bytes}
    (h : t.LibFile moduleName names content) :
    ∀ name ∈ listedNames moduleName names, IsFileName name := by
  have hall := ModulesTree.isFileName h.atNames
  rw [listedNames]
  split_ifs
  · exact hall
  · exact fun name hname ↦ hall name (List.mem_cons_of_mem _ (List.mem_cons_of_mem _ hname))

theorem LibFile.noDotDot {moduleName : Bytes} {names : List Bytes} {content : Bytes}
    (h : t.LibFile moduleName names content) :
    ∀ name ∈ listedNames moduleName names, hasDotDot name = false := by
  have hall := t.noDotDot _ _ h.atNames
  rw [listedNames]
  split_ifs
  · exact hall
  · exact fun name hname ↦ hall name (List.mem_cons_of_mem _ (List.mem_cons_of_mem _ hname))

theorem LibFile.listedNames_ne_nil {moduleName : Bytes} {names : List Bytes} {content : Bytes}
    (h : t.LibFile moduleName names content) : listedNames moduleName names ≠ [] := by
  rw [listedNames]
  split_ifs
  · exact List.cons_ne_nil _ _
  · exact h.ne_nil

end ModulesTree

theorem hasDotDot_joinPath {names : List Bytes} (h : ∀ name ∈ names, hasDotDot name = false) :
    hasDotDot (joinPath names) = false := by
  induction names with
  | nil => rfl
  | cons name names ih =>
    obtain ⟨hname, hnames⟩ := List.forall_mem_cons.1 h
    by_cases hnil : names = []
    · rw [hnil, joinPath_singleton, hname]
    · rw [joinPath_cons hnil, hasDotDot_append_slash, hname, ih hnames]
      rfl

namespace ModulesTree

variable {t : ModulesTree} {digest : Bytes → List UInt8}

theorem sendError_ne {status : ℕ} (h : status ≠ 200) (message content : Bytes) :
    sendError status message ≠ ⟨200, content⟩ :=
  fun heq ↦ h (congrArg HttpResponse.status heq)

/-- What is served for proper names. -/
theorem handlePluginContent_eq {names : List Bytes} (hne : names ≠ [])
    (hnames : ∀ name ∈ names, IsFileName name) (hdots : ∀ name ∈ names, hasDotDot name = false)
    (hlen : (t.pathOf names).length < 4096) (content : Bytes) :
    handlePluginContent t.fs (some t.modulesPath) (pluginPrefix ++ joinPath names) =
        ⟨200, content⟩ ↔
      t.root.at? names = some (.file content) ∧ content.length ≤ maxPluginSize := by
  have hresolve : t.fs.resolve (cutTo 4096 (t.pathOf names)) = t.root.at? names := by
    rw [cutTo_of_lt hlen]
    exact FileSystem.resolve_join t.resolves hne hnames hlen
  rw [handlePluginContent, List.drop_left, if_neg (by simp), if_neg (joinPath_ne_nil hne hnames),
    hasDotDot_joinPath hdots, if_neg Bool.false_ne_true]
  rw [ModulesTree.pathOf] at hresolve
  rw [hresolve]
  cases hat : t.root.at? names with
  | none => exact iff_of_false (sendError_ne (by decide) _ _) (by simp)
  | some n =>
    cases n with
    | socket => exact iff_of_false (sendError_ne (by decide) _ _) (by simp)
    | directory es => exact iff_of_false (sendError_ne (by decide) _ _) (by simp)
    | file content' =>
      dsimp only
      split_ifs with hsize
      · refine iff_of_false (sendError_ne (by decide) _ _) ?_
        rintro ⟨heq, hle⟩
        obtain rfl : content' = content := by simpa using heq
        omega
      · simp only [HttpResponse.mk.injEq, true_and, Option.some.injEq, FileNode.file.injEq]
        constructor
        · rintro rfl
          exact ⟨rfl, by omega⟩
        · exact fun h ↦ h.1

/-! ### The text of the listing -/

end ModulesTree

theorem isPlain_fileMd5 (digest : Bytes → List UInt8) (content : Bytes) :
    ∀ c ∈ fileMd5 digest content, (c ≠ '\x22' ∧ c ≠ '\x5c') ∧ ' ' ≤ c ∧ c ≠ '\x00' := by
  intro c hc
  rw [fileMd5, List.mem_flatMap] at hc
  obtain ⟨b, -, hc⟩ := hc
  have hdigit : ∀ n < 16, (Nat.digitChar n ≠ '\x22' ∧ Nat.digitChar n ≠ '\x5c') ∧
      ' ' ≤ Nat.digitChar n ∧ Nat.digitChar n ≠ '\x00' := by decide
  have hb := b.toNat_lt
  rcases List.mem_cons.1 hc with rfl | hc
  · exact hdigit _ (by omega)
  · rw [List.mem_singleton] at hc
    exact hc ▸ hdigit _ (by omega)

namespace PluginEntry

theorem text_eq_spliced (e : PluginEntry) : e.text = e.document.spliced := by
  have hpath : "\x7b\x22path\x22:\x22".toList =
      '\x7b' :: '\x22' :: ("path".toList ++ ['\x22', ':', '\x22']) := by simp
  have hchecksum :
      "\x22,\x22checksum\x22:\x7b\x22type\x22:\x22md5\x22,\x22value\x22:\x22\x7bmd5\x7d".toList =
        ['\x22', ',', '\x22'] ++ "checksum".toList ++ ['\x22', ':', '\x7b', '\x22'] ++
          "type".toList ++ ['\x22', ':', '\x22'] ++ "md5".toList ++ ['\x22', ',', '\x22'] ++
          "value".toList ++ ['\x22', ':', '\x22'] ++ "\x7bmd5\x7d".toList := by simp
  have htype : "\x22\x7d,\x22type\x22:\x22file\x22\x7d".toList =
      ['\x22', '\x7d', ',', '\x22'] ++ "type".toList ++ ['\x22', ':', '\x22'] ++ "file".toList ++
        ['\x22', '\x7d'] := by simp
  unfold text
  simp only [hpath, hchecksum, htype, document, JsonOf.spliced, JsonOf.splicedMembers, quoted,
    if_true, Bool.false_eq_true, if_false, List.append_assoc, List.cons_append, List.nil_append,
    List.append_nil]

end PluginEntry

namespace PluginListing

theorem body_eq_spliced (l : PluginListing) : l.body = l.document.spliced := by
  have hentries : ∀ first, entriesText first l.entries =
      JsonOf.splicedElements first (l.entries.map PluginEntry.document) := by
    induction l.entries with
    | nil => exact fun _ ↦ rfl
    | cons e es ih =>
      intro first
      rw [entriesText, ih, List.map_cons, JsonOf.splicedElements, e.text_eq_spliced,
        List.append_assoc]
  rw [body, text, hentries, List.cons_append]
  rfl

end PluginListing

namespace PluginEntry

/-- The texts of the document of every entry. -/
def commonTexts : List Bytes :=
  ["path".toList, "checksum".toList, "type".toList, "md5".toList, "value".toList, "file".toList]

theorem hasText_document_iff {e : PluginEntry} {s : Bytes} :
    e.document.HasText s ↔
      s ∈ commonTexts ∨ s = e.path ∨ s = "\x7bmd5\x7d".toList ++ e.checksum := by
  simp only [document, commonTexts, JsonOf.hasText_object_iff, JsonOf.hasText_string_iff,
    List.mem_cons, List.not_mem_nil, or_false, exists_eq_or_imp, exists_eq_left]
  generalize "path".toList = path, "checksum".toList = checksum, "type".toList = type,
    "md5".toList = md5, "value".toList = value, "file".toList = file
  grind

theorem commonTexts_plain : ∀ s ∈ commonTexts, IsPlain s ∧ '\x00' ∉ s := by
  simp [commonTexts, IsPlain]

/-- An entry whose path has no NUL and whose checksum is a checksum. -/
def Proper (digest : Bytes → List UInt8) (e : PluginEntry) : Prop :=
  '\x00' ∉ e.path ∧ ∃ content, e.checksum = fileMd5 digest content

variable {digest : Bytes → List UInt8}

theorem forall_mem_text_iff {e : PluginEntry} (he : e.Proper digest) :
    (∀ c ∈ e.text, ' ' ≤ c) ↔ ∀ c ∈ e.path, ' ' ≤ c := by
  obtain ⟨-, content, hchecksum⟩ := he
  have hsum : ∀ c ∈ e.checksum, ' ' ≤ c := fun c hc ↦
    (isPlain_fileMd5 digest content c (hchecksum ▸ hc)).2.1
  have hpath : ∀ c ∈ "\x7b\x22path\x22:\x22".toList, ' ' ≤ c := by simp
  have hmiddle : ∀ c ∈
      "\x22,\x22checksum\x22:\x7b\x22type\x22:\x22md5\x22,\x22value\x22:\x22\x7bmd5\x7d".toList,
      ' ' ≤ c := by simp
  have hend : ∀ c ∈ "\x22\x7d,\x22type\x22:\x22file\x22\x7d".toList, ' ' ≤ c := by simp
  unfold text
  simp only [List.forall_mem_append]
  exact ⟨fun h ↦ h.1.1.1.2, fun h ↦ ⟨⟨⟨⟨hpath, h⟩, hmiddle⟩, hsum⟩, hend⟩⟩

theorem distinctKeys_document (e : PluginEntry) : e.document.DistinctKeys := by
  refine JsonOf.distinctKeys_object_iff.2 ⟨by simp, ?_⟩
  simp only [List.forall_mem_cons, List.not_mem_nil, false_implies, implies_true, and_true]
  refine ⟨JsonOf.distinctKeys_string _, JsonOf.distinctKeys_object_iff.2 ⟨by simp, ?_⟩,
    JsonOf.distinctKeys_string _⟩
  simp only [List.forall_mem_cons, List.not_mem_nil, false_implies, implies_true, and_true]
  exact ⟨JsonOf.distinctKeys_string _, JsonOf.distinctKeys_string _⟩

theorem not_has_number_document (e : PluginEntry) (q : ℚ) : ¬ e.document.Has (.number q) := by
  simp only [document, JsonOf.has_number_object_iff, List.mem_cons, List.not_mem_nil, or_false,
    exists_eq_or_imp, exists_eq_left, JsonOf.not_has_number_string, not_false_eq_true]

theorem depth_document (e : PluginEntry) : e.document.depth = 2 := rfl

end PluginEntry

namespace PluginListing

variable {digest : Bytes → List UInt8}

theorem forall_mem_body_iff {l : PluginListing} (hl : ∀ e ∈ l.entries, e.Proper digest) :
    (∀ c ∈ l.body, ' ' ≤ c) ↔ ∀ e ∈ l.entries, ∀ c ∈ e.path, ' ' ≤ c := by
  have hentries : ∀ first, (∀ c ∈ entriesText first l.entries, ' ' ≤ c) ↔
      ∀ e ∈ l.entries, ∀ c ∈ e.path, ' ' ≤ c := by
    generalize l.entries = es at hl
    induction es with
    | nil => simp [entriesText]
    | cons e es ih =>
      intro first
      obtain ⟨he, hes⟩ := List.forall_mem_cons.1 hl
      rw [entriesText, List.forall_mem_append, List.forall_mem_append, ih hes,
        PluginEntry.forall_mem_text_iff he, List.forall_mem_cons]
      cases first <;> simp
  rw [body, text, List.forall_mem_append, List.forall_mem_cons, hentries]
  simp

theorem hasText_document_iff {l : PluginListing} {s : Bytes} :
    l.document.HasText s ↔ ∃ e ∈ l.entries, e.document.HasText s := by
  rw [document, JsonOf.hasText_array_iff]
  simp only [List.mem_map, exists_exists_and_eq_and]

/-- The response is well-formed and says what it is meant to say exactly if the paths in it have no
quote, no backslash and no control character. -/
theorem wellFormed_iff {l : PluginListing} (hl : ∀ e ∈ l.entries, e.Proper digest) :
    (jsonParse l.body = .ok l.document ∧ ∀ c ∈ l.body, ' ' ≤ c) ↔
      ∀ e ∈ l.entries, IsPlain e.path ∧ ∀ c ∈ e.path, ' ' ≤ c := by
  have hsum : ∀ e ∈ l.entries, IsPlain ("\x7bmd5\x7d".toList ++ e.checksum) ∧
      '\x00' ∉ "\x7bmd5\x7d".toList ++ e.checksum := by
    intro e he
    obtain ⟨-, content, hchecksum⟩ := hl e he
    have hmd5 := isPlain_fileMd5 digest content
    rw [hchecksum]
    constructor
    · refine List.forall_mem_append.2 ⟨by simp, fun c hc ↦ (hmd5 c hc).1⟩
    · refine fun h ↦ (List.mem_append.1 h).elim (by simp) fun h ↦ (hmd5 _ h).2.2 rfl
  have hdepth : l.document.depth ≤ jsonMaxDepth := by
    have hentries := (JsonOf.depthElements_le_iff (d := 2)).2
      (List.forall_mem_map.2 fun e (_ : e ∈ l.entries) ↦ e.depth_document.le)
    exact (Nat.succ_le_succ hentries).trans (by decide)
  have hkeys : l.document.DistinctKeys := by
    refine JsonOf.distinctKeys_array_iff.2 (List.forall_mem_map.2 fun e _ ↦ ?_)
    exact e.distinctKeys_document
  have hnum : ∀ q, ¬ l.document.Has (.number q) := by
    intro q h
    obtain ⟨v, hv, h⟩ := JsonOf.has_number_array_iff.1 h
    obtain ⟨e, -, rfl⟩ := List.mem_map.1 hv
    exact e.not_has_number_document q h
  have hnul : ∀ s, l.document.HasText s → '\x00' ∉ s := by
    intro s hs
    obtain ⟨e, he, hs⟩ := hasText_document_iff.1 hs
    rcases PluginEntry.hasText_document_iff.1 hs with hs | rfl | rfl
    · exact (PluginEntry.commonTexts_plain s hs).2
    · exact (hl e he).1
    · exact (hsum e he).2
  rw [body_eq_spliced, JsonOf.jsonParse_spliced_iff hdepth hkeys hnum hnul, ← body_eq_spliced,
    forall_mem_body_iff hl]
  constructor
  · rintro ⟨hplain, hcontrol⟩ e he
    refine ⟨hplain _ (hasText_document_iff.2 ⟨e, he, ?_⟩), hcontrol e he⟩
    exact PluginEntry.hasText_document_iff.2 (.inr (.inl rfl))
  · refine fun h ↦ ⟨fun s hs ↦ ?_, fun e he ↦ (h e he).2⟩
    obtain ⟨e, he, hs⟩ := hasText_document_iff.1 hs
    rcases PluginEntry.hasText_document_iff.1 hs with hs | rfl | rfl
    · exact (PluginEntry.commonTexts_plain s hs).1
    · exact (h e he).1
    · exact (hsum e he).1

end PluginListing

/-! ### When what is listed is what is served -/

namespace ModulesTree

variable {t : ModulesTree} {digest : Bytes → List UInt8}

theorem proper_entryOf {moduleName : Bytes} {names : List Bytes} {content : Bytes}
    (h : t.LibFile moduleName names content) :
    (t.entryOf digest moduleName (names, content)).Proper digest := by
  refine ⟨fun hnul ↦ ?_, content, rfl⟩
  rcases mem_joinPath hnul with h' | ⟨name, hname, hc⟩
  · exact absurd h' (by decide)
  · exact (h.isFileName name hname).noNul hc

/-- The path of an entry may stand in the response exactly if the names that it is made of may. -/
theorem plain_entryOf_iff {moduleName : Bytes} {names : List Bytes} {content : Bytes} :
    (IsPlain (t.entryOf digest moduleName (names, content)).path ∧
        ∀ c ∈ (t.entryOf digest moduleName (names, content)).path, ' ' ≤ c) ↔
      ∀ name ∈ listedNames moduleName names, IsPlain name ∧ ∀ c ∈ name, ' ' ≤ c := by
  constructor
  · rintro ⟨hplain, hcontrol⟩ name hname
    exact ⟨fun c hc ↦ hplain c (mem_joinPath_of_mem hname hc),
      fun c hc ↦ hcontrol c (mem_joinPath_of_mem hname hc)⟩
  · intro h
    have hslash : ('/' ≠ '\x22' ∧ '/' ≠ '\x5c') ∧ ' ' ≤ '/' := by decide
    constructor
    · intro c hc
      rcases mem_joinPath hc with rfl | ⟨name, hname, hc⟩
      · exact hslash.1
      · exact (h name hname).1 c hc
    · intro c hc
      rcases mem_joinPath hc with rfl | ⟨name, hname, hc⟩
      · exact hslash.2
      · exact (h name hname).2 c hc

/-- A path of an entry is served with a content exactly if a small file with it stands there. -/
theorem served_entryOf_iff (hfit : t.PathsFit) {moduleName : Bytes} {names : List Bytes}
    {content : Bytes} (h : t.LibFile moduleName names content) {content' : Bytes} :
    handlePluginContent t.fs (some t.modulesPath)
        (pluginPrefix ++ (t.entryOf digest moduleName (names, content)).path) = ⟨200, content'⟩ ↔
      t.root.at? (listedNames moduleName names) = some (.file content') ∧
        content'.length ≤ maxPluginSize := by
  refine handlePluginContent_eq h.listedNames_ne_nil h.isFileName h.noDotDot ?_ content'
  have hlen := hfit.nodes _ _ h.atNames
  rw [listedNames]
  split_ifs
  · exact hlen
  · rw [pathOf, libNames, joinPath_cons (List.cons_ne_nil _ _), joinPath_cons h.ne_nil] at hlen
    rw [pathOf]
    simp only [List.length_append, List.length_cons] at hlen ⊢
    omega

theorem mem_entries {e : PluginEntry}
    (he : e ∈ ((t.allEntries digest).foldl PluginListing.add ⟨[], []⟩).entries) :
    ∃ moduleName names content, t.LibFile moduleName names content ∧
      e = t.entryOf digest moduleName (names, content) := by
  rcases (PluginListing.foldl_add _ _).1 e he with h | h
  · cases h
  · exact mem_allEntries_iff.1 h

theorem proper_of_mem_entries {e : PluginEntry}
    (he : e ∈ ((t.allEntries digest).foldl PluginListing.add ⟨[], []⟩).entries) :
    e.Proper digest := by
  obtain ⟨moduleName, names, content, hfile, rfl⟩ := mem_entries he
  exact proper_entryOf hfile

theorem listingAgrees_of_servable (hfit : t.PathsFit) (h : t.Servable digest) :
    t.ListingAgrees digest ((t.allEntries digest).foldl PluginListing.add ⟨[], []⟩) where
  wellFormed := by
    refine (PluginListing.wellFormed_iff fun e he ↦ proper_of_mem_entries he).2 fun e he ↦ ?_
    obtain ⟨moduleName, names, content, hfile, rfl⟩ := mem_entries he
    exact plain_entryOf_iff.2 (h.plain _ _ _ hfile)
  served := by
    intro e he
    obtain ⟨moduleName, names, content, hfile, rfl⟩ := mem_entries he
    by_cases hone : names.length = 1
    · obtain ⟨name, rfl⟩ := List.length_eq_one_iff.1 hone
      refine ⟨content, (served_entryOf_iff hfit hfile).2 ⟨?_, h.small _ _ _ hfile⟩, rfl⟩
      rw [listedNames, if_pos hone]
      exact hfile.atNames
    · obtain ⟨content', hat, hsize, hsum⟩ := h.mirrored _ _ _ hfile hone
      refine ⟨content', (served_entryOf_iff hfit hfile).2 ⟨?_, hsize⟩, hsum⟩
      rw [listedNames, if_neg hone]
      exact hat
  distinct := by
    intro e he e' he' hpath
    obtain ⟨m, names, content, hfile, rfl⟩ := mem_entries he
    obtain ⟨m', names', content', hfile', rfl⟩ := mem_entries he'
    have hnames : listedNames m names = listedNames m' names' :=
      (joinPath_inj hfile.listedNames_ne_nil hfile'.listedNames_ne_nil hfile.isFileName
        hfile'.isFileName).1 hpath
    obtain ⟨rfl, rfl⟩ := h.apart _ _ _ _ _ _ hfile hfile' hnames
    rfl
  complete := by
    intro hskipped moduleName names content hfile
    have hall := ((PluginListing.foldl_add (t.allEntries digest) ⟨[], []⟩).2 hskipped).2
    refine ⟨t.entryOf digest moduleName (names, content), ?_, rfl⟩
    rw [hall, List.nil_append]
    exact mem_allEntries_iff.2 ⟨_, _, _, hfile, rfl⟩

/-- Under the condition, what is listed is what is served. -/
theorem agrees_of_servable (hfit : t.PathsFit) (h : t.Servable digest) : t.Agrees digest := by
  have heq := listPlugins_eq digest hfit le_rfl
  refine ⟨⟨_, _, heq⟩, fun fuel l hl ↦ ?_⟩
  obtain rfl := Option.some.inj (listPlugins_unique hl heq)
  exact listingAgrees_of_servable hfit h

/-- Where the listing fits into its buffer, what is listed is what is served only under the
condition. -/
theorem servable_of_agrees (hfit : t.PathsFit) (hroom : t.ListingFits digest)
    (h : t.Agrees digest) : t.Servable digest := by
  have heq := listPlugins_eq digest hfit le_rfl
  have hagrees := h.2 _ _ heq
  have hall := ((PluginListing.foldl_add (t.allEntries digest) ⟨[], []⟩).2 (hroom _ _ heq)).2
  have hmem {moduleName : Bytes} {names : List Bytes} {content : Bytes}
      (hfile : t.LibFile moduleName names content) :
      t.entryOf digest moduleName (names, content) ∈
        ((t.allEntries digest).foldl PluginListing.add ⟨[], []⟩).entries := by
    rw [hall, List.nil_append]
    exact mem_allEntries_iff.2 ⟨_, _, _, hfile, rfl⟩
  refine ⟨fun moduleName names content hfile ↦ ?_, fun moduleName name content hfile ↦ ?_,
    fun moduleName names content hfile hone ↦ ?_, fun m names c m' names' c' hfile hfile' heq ↦ ?_⟩
  · have hplain := (PluginListing.wellFormed_iff fun e he ↦ proper_of_mem_entries he).1
      hagrees.wellFormed
    exact plain_entryOf_iff.1 (hplain _ (hmem hfile))
  · obtain ⟨content', hserved, -⟩ := hagrees.served _ (hmem hfile)
    obtain ⟨hat, hsize⟩ := (served_entryOf_iff hfit hfile).1 hserved
    rw [listedNames, if_pos List.length_singleton, hfile.atNames] at hat
    obtain rfl : content = content' := by simpa using hat
    exact hsize
  · obtain ⟨content', hserved, hsum⟩ := hagrees.served _ (hmem hfile)
    obtain ⟨hat, hsize⟩ := (served_entryOf_iff hfit hfile).1 hserved
    rw [listedNames, if_neg hone] at hat
    exact ⟨content', hat, hsize, hsum⟩
  · have hpath := hagrees.distinct _ (hmem hfile) _ (hmem hfile') (congrArg joinPath heq)
    have hnames : libNames m names = libNames m' names' := by
      refine (joinPath_inj (List.cons_ne_nil _ _) (List.cons_ne_nil _ _)
        (isFileName hfile.atNames) (isFileName hfile'.atNames)).1 ?_
      exact (List.cons.inj (List.append_cancel_left hpath)).2
    obtain ⟨rfl, hrest⟩ := List.cons.inj hnames
    exact ⟨rfl, (List.cons.inj hrest).2⟩

/-- The paths fit if the names of the tree are short. -/
theorem pathsFit_of_allNames
    (h : t.modulesPath.length + 5 + pathSize t.root.allNames < 4096) : t.PathsFit := by
  have hsize {names : List Bytes} {n : FileNode Bytes} (hat : t.root.at? names = some n) :
      pathSize names ≤ pathSize t.root.allNames :=
    pathSize_le_of_sublist (FileNode.sublist_allNames hat)
  constructor
  · intro names n hat
    have hlen := length_joinPath_le names
    have hle := hsize hat
    rw [pathOf, List.length_append, List.length_cons]
    omega
  · intro moduleName n hat
    have hle := hsize hat
    have hlib : "lib".toList.length = 3 := rfl
    rw [pathSize_cons] at hle
    rw [pathOf, libNames, joinPath_cons (List.cons_ne_nil _ _), joinPath_singleton,
      List.length_append, List.length_cons, List.length_append, List.length_cons, hlib]
    omega

theorem isFileName_letter {c : Char} (hdot : c ≠ '.') (hslash : c ≠ '/') (hnul : c ≠ '\x00') :
    IsFileName [c] :=
  ⟨by simp, by simp [hdot], by simp, by simpa using Ne.symm hslash, by simpa using Ne.symm hnul⟩

/-- The directory of modules with one module, which has a `lib` directory. -/
def moduleEntries (es : List (Bytes × FileNode Bytes)) : List (Bytes × FileNode Bytes) :=
  [(['a'], .directory [("lib".toList, .directory es)])]

theorem isTree_moduleEntries {es : List (Bytes × FileNode Bytes)}
    (h : (FileNode.directory es).IsTree) : (FileNode.directory (moduleEntries es)).IsTree :=
  FileNode.isTree_directory (List.nodup_singleton _) <| List.forall_mem_singleton.2
    ⟨isFileName_letter (by decide) (by decide) (by decide),
      FileNode.isTree_directory (List.nodup_singleton _) <|
        List.forall_mem_singleton.2 ⟨isFileName_lib, h⟩⟩

/-- A directory of one module, in the working directory. -/
def oneModule (es : List (Bytes × FileNode Bytes)) (htree : (FileNode.directory es).IsTree)
    (hnames : ∀ name ∈ (FileNode.directory (moduleEntries es)).allNames, hasDotDot name = false) :
    ModulesTree where
  fs := ⟨.directory [], [.directory [(['m'], .directory (moduleEntries es))]]⟩
  modulesPath := ['m']
  modules := moduleEntries es
  above := [.directory [(['m'], .directory (moduleEntries es))]]
  resolves := rfl
  isTree := isTree_moduleEntries htree
  noDotDot _ _ h name hname := hnames name ((FileNode.sublist_allNames h).subset hname)

theorem isTree_oneFile : (FileNode.directory [(['f'], .file ['x'])]).IsTree :=
  FileNode.isTree_directory (List.nodup_singleton _) <| List.forall_mem_singleton.2
    ⟨isFileName_letter (by decide) (by decide) (by decide), FileNode.isTree_file _⟩

/-- A file in the `lib` directory of a module. -/
def fileInLib : ModulesTree := oneModule [(['f'], .file ['x'])] isTree_oneFile (by decide)

/-- A file in a directory in the `lib` directory of a module. -/
def fileBelowLib : ModulesTree :=
  oneModule [(['s'], .directory [(['f'], .file ['x'])])]
    (FileNode.isTree_directory (List.nodup_singleton _) <| List.forall_mem_singleton.2
      ⟨isFileName_letter (by decide) (by decide) (by decide), isTree_oneFile⟩) (by decide)

theorem libFile_fileInLib {moduleName : Bytes} {names : List Bytes} {content : Bytes}
    (h : fileInLib.LibFile moduleName names content) :
    moduleName = ['a'] ∧ names = [['f']] ∧ content = ['x'] := by
  have hat := h.atNames
  rw [libNames, FileNode.at?] at hat
  obtain ⟨n, hn, -⟩ := Option.bind_eq_some_iff.1 hat
  have hm : (moduleName, n) ∈ fileInLib.modules := FileNode.mem_of_child?_eq hn
  obtain ⟨rfl, rfl⟩ := Prod.mk.inj (List.mem_singleton.1 hm)
  have hfiles := (mem_libFiles_iff hm).2 h
  exact ⟨rfl, Prod.mk.inj (List.mem_singleton.1 hfiles)⟩

end ModulesTree

end PuppetC
