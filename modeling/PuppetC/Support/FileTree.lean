import Mathlib.Data.List.Nodup
import Mathlib.Data.Nat.Notation
import Mathlib.Tactic.Common
import Mathlib.Algebra.GroupWithZero.Nat

/-!
# Directory trees and paths

A file system without links is a tree of directories. A path is a text: its components, between
slashes, are followed from the root or from the working directory, where a component may be
empty, `.` or `..`. In a tree whose entries have proper names, a path of such names leads to the
node that stands at them.

## Main definitions

* `FileNode`: files, directories, and sockets for what is neither.
* `FileNode.at?`: the node at a list of names.
* `FileNode.IsTree`: the names of each directory are proper and distinct.
* `FileSystem.resolve`: the node that a path leads to.
* `FileNode.filesBelow`: the files below a node, along names that satisfy a condition.

## Main results

* `FileSystem.resolve_join`: a path that goes on with proper names from a directory.
* `FileNode.mem_filesBelow_iff`: the files below a node are those at names with the condition.
-/

namespace PuppetC

/-- A node of a directory tree. -/
inductive FileNode (α : Type) where
  | file (content : α)
  | directory (entries : List (List Char × FileNode α))
  | socket

/-- A name that an entry of a directory can have. -/
structure IsFileName (name : List Char) : Prop where
  ne_nil : name ≠ []
  ne_dot : name ≠ ['.']
  ne_dotDot : name ≠ ['.', '.']
  noSlash : '/' ∉ name
  noNul : '\x00' ∉ name

/-- A name that is neither empty nor `.` nor `..`. -/
structure IsProperName (name : List Char) : Prop where
  ne_nil : name ≠ []
  ne_dot : name ≠ ['.']
  ne_dotDot : name ≠ ['.', '.']

theorem IsFileName.isProperName {name : List Char} (h : IsFileName name) : IsProperName name :=
  ⟨h.ne_nil, h.ne_dot, h.ne_dotDot⟩

/-- Names with slashes between them. -/
def joinPath (names : List (List Char)) : List Char := ['/'].intercalate names

namespace FileNode

variable {α : Type}

/-- The entry of a directory with a name. -/
def child? (name : List Char) : FileNode α → Option (FileNode α)
  | directory es => (es.find? fun e ↦ e.1 = name).map Prod.snd
  | _ => none

/-- The node at a list of names. -/
def at? : FileNode α → List (List Char) → Option (FileNode α)
  | n, [] => some n
  | n, name :: names => (n.child? name).bind fun m ↦ m.at? names

/-- The names of each directory are proper and distinct. -/
def IsTree (n : FileNode α) : Prop :=
  ∀ names es, n.at? names = some (directory es) →
    (es.map Prod.fst).Nodup ∧ ∀ e ∈ es, IsFileName e.1

mutual

/-- More than the number of directories on any way down. -/
def height : FileNode α → ℕ
  | directory es => heightAmong es + 1
  | _ => 0

/-- The height of the highest entry. -/
def heightAmong : List (List Char × FileNode α) → ℕ
  | [] => 0
  | (_, n) :: es => max n.height (heightAmong es)

end

mutual

/-- The files below a node, along names that satisfy a condition. -/
def filesBelow (visible : List Char → Bool) : FileNode α → List (List (List Char) × α)
  | file content => [([], content)]
  | directory es => filesAmong visible es
  | socket => []

/-- The files among the entries of a directory and below them. -/
def filesAmong (visible : List Char → Bool) :
    List (List Char × FileNode α) → List (List (List Char) × α)
  | [] => []
  | (name, n) :: es =>
    (if visible name then (n.filesBelow visible).map fun f ↦ (name :: f.1, f.2) else []) ++
      filesAmong visible es

end

mutual

/-- All names in a tree. -/
def allNames : FileNode α → List (List Char)
  | directory es => allNamesAmong es
  | _ => []

/-- All names among entries and below them. -/
def allNamesAmong : List (List Char × FileNode α) → List (List Char)
  | [] => []
  | (name, n) :: es => name :: (n.allNames ++ allNamesAmong es)

end

/-- Induction on a node. -/
theorem induct {P : FileNode α → Prop} (file : ∀ content, P (.file content))
    (directory : ∀ es : List (List Char × FileNode α), (∀ e ∈ es, P e.2) → P (.directory es))
    (socket : P .socket) (n : FileNode α) : P n :=
  @FileNode.rec α P (fun es ↦ ∀ e ∈ es, P e.2) (fun e ↦ P e.2) file directory socket (by simp)
    (fun e es he hes ↦ by
      intro e' he'
      rcases List.mem_cons.1 he' with rfl | h
      exacts [he, hes e' h]) (fun _ _ hn ↦ hn) n

/-! ### Nodes at names -/

theorem at?_append (n : FileNode α) (names names' : List (List Char)) :
    n.at? (names ++ names') = (n.at? names).bind fun m ↦ m.at? names' := by
  induction names generalizing n with
  | nil => rfl
  | cons name names ih =>
    rw [List.cons_append, at?, at?, Option.bind_assoc]
    exact congrArg _ (funext fun m ↦ ih m)

theorem IsTree.of_at? {n m : FileNode α} (h : n.IsTree) {names : List (List Char)}
    (hm : n.at? names = some m) : m.IsTree := by
  intro names' es hes
  exact h (names ++ names') es (by rw [at?_append, hm, Option.bind_some, hes])

theorem IsTree.child?_eq {es : List (List Char × FileNode α)} (h : (directory es).IsTree)
    {e : List Char × FileNode α} (he : e ∈ es) : (directory es).child? e.1 = some e.2 := by
  have hnodup := (h [] es rfl).1
  obtain ⟨e', he'⟩ := Option.isSome_iff_exists.1
    (List.find?_isSome (p := fun e' ↦ e'.1 = e.1).2 ⟨e, he, by simp⟩)
  have hname : e'.1 = e.1 := by simpa using List.find?_some he'
  rw [child?, he', Option.map_some,
    List.inj_on_of_nodup_map hnodup (List.mem_of_find?_eq_some he') he hname]

theorem mem_of_child?_eq {es : List (List Char × FileNode α)} {name : List Char} {n : FileNode α}
    (h : (directory es).child? name = some n) : (name, n) ∈ es := by
  rw [child?, Option.map_eq_some_iff] at h
  obtain ⟨e, he, rfl⟩ := h
  obtain rfl : e.1 = name := by simpa using List.find?_some he
  exact List.mem_of_find?_eq_some he

/-- The names that lead to a node of a tree are proper. -/
theorem IsTree.isFileName {n m : FileNode α} (h : n.IsTree) {names : List (List Char)}
    (hm : n.at? names = some m) : ∀ name ∈ names, IsFileName name := by
  induction names generalizing n with
  | nil => simp
  | cons name names ih =>
    rw [at?] at hm
    obtain ⟨n', hn', hm⟩ := Option.bind_eq_some_iff.1 hm
    have hone : n.at? [name] = some n' := by rw [at?, hn']; rfl
    refine List.forall_mem_cons.2 ⟨?_, ih (h.of_at? hone) hm⟩
    cases n with
    | file | socket => simp [child?] at hn'
    | directory es => exact (h [] es rfl).2 _ (mem_of_child?_eq hn')

theorem isTree_file (content : α) : (file content).IsTree := by
  intro names es h
  cases names with
  | nil => cases h
  | cons name names => simp [at?, child?] at h

/-- A directory of trees with proper and distinct names is a tree. -/
theorem isTree_directory {es : List (List Char × FileNode α)} (hnodup : (es.map Prod.fst).Nodup)
    (h : ∀ e ∈ es, IsFileName e.1 ∧ e.2.IsTree) : (directory es).IsTree := by
  intro names es' hes'
  cases names with
  | nil =>
    obtain rfl : es = es' := by simpa [at?] using hes'
    exact ⟨hnodup, fun e he ↦ (h e he).1⟩
  | cons name names =>
    rw [at?] at hes'
    obtain ⟨n, hn, hes'⟩ := Option.bind_eq_some_iff.1 hes'
    exact (h _ (mem_of_child?_eq hn)).2 names es' hes'

theorem sublist_allNamesAmong {es : List (List Char × FileNode α)} {e : List Char × FileNode α}
    (he : e ∈ es) : (e.1 :: e.2.allNames).Sublist (allNamesAmong es) := by
  induction es with
  | nil => cases he
  | cons e' es ih =>
    obtain ⟨name, n⟩ := e'
    rw [allNamesAmong]
    rcases List.mem_cons.1 he with rfl | he
    · exact (List.sublist_append_left _ _).cons_cons _
    · exact ((ih he).trans (List.sublist_append_right _ _)).cons _

/-- The names on the way to a node are among all names. -/
theorem sublist_allNames {n m : FileNode α} {names : List (List Char)}
    (h : n.at? names = some m) : names.Sublist n.allNames := by
  induction names generalizing n with
  | nil => exact List.nil_sublist _
  | cons name names ih =>
    rw [at?] at h
    obtain ⟨n', hn', hm⟩ := Option.bind_eq_some_iff.1 h
    cases n with
    | file | socket => cases hn'
    | directory es =>
      exact ((ih hm).cons_cons name).trans (sublist_allNamesAmong (mem_of_child?_eq hn'))

theorem height_le_of_mem {es : List (List Char × FileNode α)} {e : List Char × FileNode α}
    (he : e ∈ es) : e.2.height ≤ heightAmong es := by
  induction es with
  | nil => cases he
  | cons e' es ih =>
    obtain ⟨name, n⟩ := e'
    rw [heightAmong]
    rcases List.mem_cons.1 he with rfl | he
    · exact Nat.le_max_left _ _
    · exact Nat.le_trans (ih he) (Nat.le_max_right _ _)

theorem height_at?_le {n m : FileNode α} {names : List (List Char)} (h : n.at? names = some m) :
    m.height ≤ n.height := by
  induction names generalizing n with
  | nil =>
    obtain rfl := Option.some.inj h
    exact Nat.le_refl _
  | cons name names ih =>
    rw [at?] at h
    obtain ⟨n', hn', hm⟩ := Option.bind_eq_some_iff.1 h
    cases n with
    | file | socket => cases hn'
    | directory es =>
      refine Nat.le_trans (ih hm) (Nat.le_trans ?_ (Nat.le_succ (heightAmong es)))
      exact height_le_of_mem (mem_of_child?_eq hn')

theorem mem_filesAmong_iff {visible : List Char → Bool} {es : List (List Char × FileNode α)}
    {names : List (List Char)} {content : α} :
    (names, content) ∈ filesAmong visible es ↔
      ∃ e ∈ es, ∃ rest, names = e.1 :: rest ∧ visible e.1 ∧
        (rest, content) ∈ e.2.filesBelow visible := by
  induction es with
  | nil => simp [filesAmong]
  | cons e es ih =>
    obtain ⟨name, n⟩ := e
    rw [filesAmong, List.mem_append, ih]
    simp only [List.mem_cons, exists_eq_or_imp]
    refine or_congr_left ?_
    split_ifs with hv
    · simp [hv, eq_comm, and_comm]
    · simp [hv]

theorem filesAmong_eq_flatMap (visible : List Char → Bool) (es : List (List Char × FileNode α)) :
    filesAmong visible es = es.flatMap fun e ↦
      if visible e.1 then (e.2.filesBelow visible).map fun f ↦ (e.1 :: f.1, f.2) else [] := by
  induction es with
  | nil => rfl
  | cons e es ih => rw [filesAmong, List.flatMap_cons, ih]

/-- The files below a node are those at names that satisfy the condition. -/
theorem mem_filesBelow_iff {visible : List Char → Bool} {n : FileNode α} (h : n.IsTree)
    {names : List (List Char)} {content : α} :
    (names, content) ∈ n.filesBelow visible ↔
      n.at? names = some (file content) ∧ ∀ name ∈ names, visible name := by
  induction n using FileNode.induct generalizing names with
  | file c =>
    cases names with
    | nil => simpa [filesBelow, at?] using eq_comm
    | cons name names => simp [filesBelow, at?, child?]
  | socket =>
    cases names with
    | nil => simp [filesBelow, at?]
    | cons name names => simp [filesBelow, at?, child?]
  | directory es ih =>
    rw [filesBelow, mem_filesAmong_iff]
    cases names with
    | nil => simp [at?]
    | cons name names =>
      rw [at?, Option.bind_eq_some_iff, List.forall_mem_cons]
      constructor
      · rintro ⟨e, he, rest, hnames, hvisible, hmem⟩
        obtain ⟨rfl, rfl⟩ := List.cons.inj hnames
        have hentry := h.child?_eq he
        have hone : (directory es).at? [e.1] = some e.2 := by
          rw [at?, hentry]
          rfl
        have htree : e.2.IsTree := h.of_at? hone
        obtain ⟨hat, hall⟩ := (ih e he htree).1 hmem
        exact ⟨⟨e.2, hentry, hat⟩, hvisible, hall⟩
      · rintro ⟨⟨m, hentry, hat⟩, hvisible, hall⟩
        have hone : (directory es).at? [name] = some m := by
          rw [at?, hentry]
          rfl
        have htree : m.IsTree := h.of_at? hone
        have hmem := mem_of_child?_eq hentry
        exact ⟨(name, m), hmem, names, rfl, hvisible, (ih _ hmem htree).2 ⟨hat, hall⟩⟩

end FileNode

/-! ### Paths -/

theorem joinPath_singleton (name : List Char) : joinPath [name] = name :=
  List.intercalate_singleton

theorem joinPath_cons {names : List (List Char)} (h : names ≠ []) (name : List Char) :
    joinPath (name :: names) = name ++ '/' :: joinPath names := by
  rw [joinPath, List.intercalate_cons_of_ne_nil h, List.append_assoc, List.singleton_append,
    joinPath]

theorem joinPath_append {names names' : List (List Char)} (h : names ≠ []) (h' : names' ≠ []) :
    joinPath (names ++ names') = joinPath names ++ '/' :: joinPath names' := by
  induction names with
  | nil => exact absurd rfl h
  | cons name names ih =>
    by_cases hnil : names = []
    · rw [hnil, List.singleton_append, joinPath_cons h', joinPath_singleton]
    · rw [List.cons_append, joinPath_cons (by simp [hnil]), ih hnil, joinPath_cons hnil,
        List.append_assoc, List.cons_append]

/-- The size of a path of names, with a slash for each. -/
def pathSize (names : List (List Char)) : ℕ := (names.map fun name ↦ name.length + 1).sum

theorem pathSize_cons (name : List Char) (names : List (List Char)) :
    pathSize (name :: names) = name.length + 1 + pathSize names := by
  rw [pathSize, List.map_cons, List.sum_cons, pathSize]

theorem pathSize_le_of_sublist {names names' : List (List Char)} (h : names.Sublist names') :
    pathSize names ≤ pathSize names' := by
  induction h with
  | slnil => exact Nat.le_refl _
  | cons name _ ih =>
    rw [pathSize_cons]
    omega
  | cons_cons name _ ih =>
    rw [pathSize_cons, pathSize_cons]
    omega

theorem length_joinPath_le (names : List (List Char)) :
    (joinPath names).length ≤ pathSize names := by
  induction names with
  | nil => exact Nat.le_refl _
  | cons name names ih =>
    rw [pathSize_cons]
    by_cases hnil : names = []
    · rw [hnil, joinPath_singleton]
      omega
    · rw [joinPath_cons hnil, List.length_append, List.length_cons]
      omega

/-- Proper names can be told from the path that they make. -/
theorem joinPath_inj {names names' : List (List Char)} (h : names ≠ []) (h' : names' ≠ [])
    (hnames : ∀ name ∈ names, IsFileName name) (hnames' : ∀ name ∈ names', IsFileName name) :
    joinPath names = joinPath names' ↔ names = names' := by
  refine ⟨fun heq ↦ ?_, fun heq ↦ heq ▸ rfl⟩
  rw [← List.splitOn_intercalate '/' (fun name hname ↦ (hnames name hname).noSlash) h,
    ← List.splitOn_intercalate '/' (fun name hname ↦ (hnames' name hname).noSlash) h']
  exact congrArg (List.splitOn '/') heq

theorem mem_joinPath {names : List (List Char)} {c : Char} (h : c ∈ joinPath names) :
    c = '/' ∨ ∃ name ∈ names, c ∈ name := by
  induction names with
  | nil => cases h
  | cons name names ih =>
    by_cases hnil : names = []
    · rw [hnil, joinPath_singleton] at h
      exact .inr ⟨name, List.mem_cons_self, h⟩
    · rw [joinPath_cons hnil] at h
      rcases List.mem_append.1 h with h | h
      · exact .inr ⟨name, List.mem_cons_self, h⟩
      · rcases List.mem_cons.1 h with rfl | h
        · exact .inl rfl
        · rcases ih h with rfl | ⟨name', hname', hc⟩
          · exact .inl rfl
          · exact .inr ⟨name', List.mem_cons_of_mem _ hname', hc⟩

theorem mem_joinPath_of_mem {names : List (List Char)} {name : List Char} (h : name ∈ names)
    {c : Char} (hc : c ∈ name) : c ∈ joinPath names := by
  induction names with
  | nil => cases h
  | cons name' names ih =>
    by_cases hnil : names = []
    · rw [hnil, joinPath_singleton]
      rw [hnil, List.mem_singleton] at h
      exact h ▸ hc
    · rw [joinPath_cons hnil]
      rcases List.mem_cons.1 h with rfl | h
      · exact List.mem_append_left _ hc
      · exact List.mem_append_right _ (List.mem_cons_of_mem _ (ih h))

/-- A file system: its root directory, and the working directory with the directories above it. -/
structure FileSystem (α : Type) where
  root : FileNode α
  cwd : List (FileNode α)

/-- `PATH_MAX`: a path is shorter than this. -/
def pathMax : ℕ := 4096

namespace FileSystem

variable {α : Type}

/-- One component of a path, from a directory with the directories above it. -/
def follow : List (FileNode α) → List Char → Option (List (FileNode α))
  | .directory es :: above, name =>
    if name = [] ∨ name = ['.'] then some (.directory es :: above)
    else if name = ['.', '.'] then some (if above.isEmpty then [.directory es] else above)
    else ((FileNode.directory es).child? name).map fun n ↦ n :: .directory es :: above
  | _, _ => none

/-- The components of a path, one after the other. -/
def walk (stack : List (FileNode α)) (components : List (List Char)) :
    Option (List (FileNode α)) :=
  components.foldlM follow stack

/-- Where a path starts. -/
def start (fs : FileSystem α) (path : List Char) : List (FileNode α) :=
  if path.head? = some '/' then [fs.root] else fs.cwd

/-- The node that a path leads to, with the directories above it. -/
def resolveStack (fs : FileSystem α) (path : List Char) : Option (List (FileNode α)) :=
  if path = [] ∨ pathMax ≤ path.length then none
  else walk (fs.start path) (path.splitOn '/')

/-- The node that a path leads to. -/
def resolve (fs : FileSystem α) (path : List Char) : Option (FileNode α) :=
  (fs.resolveStack path).bind List.head?

theorem walk_properNames (n : FileNode α) (above : List (FileNode α)) {names : List (List Char)}
    (h : ∀ name ∈ names, IsProperName name) :
    (walk (n :: above) names).bind List.head? = n.at? names := by
  induction names generalizing n above with
  | nil => rfl
  | cons name names ih =>
    obtain ⟨hname, hnames⟩ := List.forall_mem_cons.1 h
    rw [walk, List.foldlM_cons, FileNode.at?]
    cases n with
    | file | socket => rfl
    | directory es =>
      rw [follow, if_neg (by simp [hname.ne_nil, hname.ne_dot]), if_neg hname.ne_dotDot]
      cases hentry : (FileNode.directory es).child? name with
      | none => rfl
      | some m => exact ih m (.directory es :: above) hnames

variable {fs : FileSystem α} {base : List Char} {n : FileNode α} {above : List (FileNode α)}

/-- A path that goes on with proper names from where another path leads. -/
theorem resolve_join (hbase : fs.resolveStack base = some (n :: above)) {names : List (List Char)}
    (hne : names ≠ []) (hnames : ∀ name ∈ names, IsFileName name)
    (hlen : (base ++ '/' :: joinPath names).length < pathMax) :
    fs.resolve (base ++ '/' :: joinPath names) = n.at? names := by
  rw [resolveStack] at hbase
  split_ifs at hbase with hnil
  have hstart : fs.start (base ++ '/' :: joinPath names) = fs.start base := by
    rw [start, start, List.head?_append_of_ne_nil _ (not_or.1 hnil).1]
  have hsplit : (base ++ '/' :: joinPath names).splitOn '/' = base.splitOn '/' ++ names := by
    rw [List.splitOn_append_cons_self, joinPath,
      List.splitOn_intercalate '/' (fun name hname ↦ (hnames name hname).noSlash) hne]
  rw [walk] at hbase
  rw [resolve, resolveStack, if_neg (not_or.2 ⟨by simp, Nat.not_le.2 hlen⟩), hstart, hsplit, walk,
    List.foldlM_append, hbase]
  exact walk_properNames n above fun name hname ↦ (hnames name hname).isProperName

end FileSystem

end PuppetC
