import PuppetC.Support.FileTree

/-!
# Where a path leads to

A path below a directory is followed name by name: empty names and `.` stay where they are, and
`..` goes up again. The position that is reached is the list of the names on the way down from the
directory; a path that leaves the directory has none.

## Main definitions

* `locate`: the position that a path below a directory leads to.
* `locateBelow`: the position below a directory of a path that starts with its path.
* `properNames`: the names of a path but for empty ones and `.`.
* `placeFrom`: the place that a path leads to from a working directory.

## Main results

* `FileSystem.resolve_locate`: what a path resolves to stands at its position.
* `locate_eq_properNames`: the position of a path without `..`.
* `placeFrom_append_slash`: the place of a path without `..` below a directory.
-/

namespace PuppetC

/-- One name of a path, from a position below a directory. -/
def stepTo (names : List (List Char)) (name : List Char) : Option (List (List Char)) :=
  if name = [] ∨ name = ['.'] then some names
  else if name = ['.', '.'] then if names = [] then none else some names.dropLast
  else some (names ++ [name])

/-- The position that a path below a directory leads to. -/
def locate (path : List Char) : Option (List (List Char)) :=
  (path.splitOn '/').foldlM stepTo []

/-- The position below a directory of a path that starts with the path of the directory. -/
def locateBelow (base path : List Char) : Option (List (List Char)) :=
  if (base ++ ['/']).isPrefixOf path then locate (path.drop (base.length + 1)) else none

/-- The names of a path but for empty ones and `.`. -/
def properNames (path : List Char) : List (List Char) :=
  (path.splitOn '/').filter fun name ↦ name ≠ [] ∧ name ≠ ['.']

/-- One name of a path, from a place below the root; the root is its own parent. -/
def enter (place : List (List Char)) (name : List Char) : List (List Char) :=
  if name = [] ∨ name = ['.'] then place
  else if name = ['.', '.'] then place.dropLast
  else place ++ [name]

/-- The place that a path leads to, as the names on the way to it from the root, when the process
stands at `cwd` and there are no links. -/
def placeFrom (cwd : List (List Char)) (path : List Char) : List (List Char) :=
  (path.splitOn '/').foldl enter (if path.head? = some '/' then [] else cwd)

/-! ### Positions -/

theorem stepTo_of_isProperName {name : List Char} (h : IsProperName name)
    (names : List (List Char)) : stepTo names name = some (names ++ [name]) := by
  rw [stepTo, if_neg (not_or.2 ⟨h.ne_nil, h.ne_dot⟩), if_neg h.ne_dotDot]

theorem foldlM_stepTo_eq {components : List (List Char)} (h : ['.', '.'] ∉ components)
    (names : List (List Char)) :
    components.foldlM stepTo names =
      some (names ++ components.filter fun name ↦ name ≠ [] ∧ name ≠ ['.']) := by
  induction components generalizing names with
  | nil => simp
  | cons name components ih =>
    rw [List.mem_cons, not_or] at h
    obtain ⟨hname, hcomponents⟩ := h
    rw [List.foldlM_cons]
    by_cases hskip : name = [] ∨ name = ['.']
    · rw [stepTo, if_pos hskip,
        List.filter_cons_of_neg (by simpa using fun h ↦ hskip.resolve_left h)]
      exact ih hcomponents names
    · have hproper : IsProperName name :=
        ⟨fun h ↦ hskip (.inl h), fun h ↦ hskip (.inr h), fun h ↦ hname h.symm⟩
      rw [stepTo_of_isProperName hproper,
        List.filter_cons_of_pos (by simpa using not_or.1 hskip)]
      refine (ih hcomponents (names ++ [name])).trans ?_
      rw [List.append_assoc, List.singleton_append]

/-- The position of a path without `..`: its names. -/
theorem locate_eq_properNames {path : List Char} (h : ['.', '.'] ∉ path.splitOn '/') :
    locate path = some (properNames path) :=
  foldlM_stepTo_eq h []

theorem locate_append_slash (path path' : List Char) :
    locate (path ++ '/' :: path') =
      (locate path).bind fun names ↦ (path'.splitOn '/').foldlM stepTo names := by
  rw [locate, List.splitOn_append_cons_self, List.foldlM_append]
  rfl

/-- A second slash does not matter. -/
theorem locate_slash_slash (path path' : List Char) :
    locate (path ++ '/' :: '/' :: path') = locate (path ++ '/' :: path') := by
  have hsplit : ('/' :: path').splitOn '/' = [] :: path'.splitOn '/' :=
    List.splitOn_append_cons_self [] path'
  rw [locate_append_slash, locate_append_slash, hsplit]
  rfl

theorem locateBelow_append (base path : List Char) :
    locateBelow base (base ++ '/' :: path) = locate path := by
  have hcons : base ++ '/' :: path = (base ++ ['/']) ++ path := List.append_cons base '/' path
  rw [locateBelow, hcons, if_pos (List.isPrefixOf_iff_prefix.2 (List.prefix_append _ _)),
    List.drop_left' (by simp)]

/-! ### Places -/

theorem foldl_enter_eq {components : List (List Char)} (h : ['.', '.'] ∉ components)
    (place : List (List Char)) :
    components.foldl enter place =
      place ++ components.filter fun name ↦ name ≠ [] ∧ name ≠ ['.'] := by
  induction components generalizing place with
  | nil => simp
  | cons name components ih =>
    rw [List.mem_cons, not_or] at h
    obtain ⟨hname, hcomponents⟩ := h
    rw [List.foldl_cons, ih hcomponents]
    by_cases hskip : name = [] ∨ name = ['.']
    · rw [enter, if_pos hskip,
        List.filter_cons_of_neg (by simpa using fun h ↦ hskip.resolve_left h)]
    · rw [enter, if_neg hskip, if_neg fun h ↦ hname h.symm,
        List.filter_cons_of_pos (by simpa using not_or.1 hskip), List.append_assoc,
        List.singleton_append]

/-- The place of a path without `..` below a directory. -/
theorem placeFrom_append_slash {base path : List Char} (hbase : base ≠ [])
    (h : ['.', '.'] ∉ path.splitOn '/') (cwd : List (List Char)) :
    placeFrom cwd (base ++ '/' :: path) = placeFrom cwd base ++ properNames path := by
  rw [placeFrom, placeFrom, List.splitOn_append_cons_self, List.foldl_append,
    List.head?_append_of_ne_nil _ hbase, foldl_enter_eq h]
  rfl

/-! ### What stands at a position -/

namespace FileSystem

variable {α : Type}

theorem follow_of_isProperName {name : List Char} (h : IsProperName name)
    {stack stack' : List (FileNode α)} (hfollow : follow stack name = some stack') :
    ∃ n, stack' = n :: stack := by
  match stack with
  | .directory es :: above =>
    rw [follow, if_neg (not_or.2 ⟨h.ne_nil, h.ne_dot⟩), if_neg h.ne_dotDot,
      Option.map_eq_some_iff] at hfollow
    obtain ⟨n, -, rfl⟩ := hfollow
    exact ⟨n, rfl⟩
  | [] | .file _ :: _ | .socket :: _ => cases hfollow

theorem follow_dot {name : List Char} (h : name = [] ∨ name = ['.'])
    {stack stack' : List (FileNode α)} (hfollow : follow stack name = some stack') :
    stack' = stack := by
  match stack with
  | .directory es :: above =>
    rw [follow, if_pos h] at hfollow
    exact (Option.some.inj hfollow).symm
  | [] | .file _ :: _ | .socket :: _ => cases hfollow

theorem follow_dotDot {n : FileNode α} {stack stack' : List (FileNode α)} (hne : stack ≠ [])
    (hfollow : follow (n :: stack) ['.', '.'] = some stack') : stack' = stack := by
  match n with
  | .directory es =>
    rw [follow, if_neg (by simp), if_pos rfl, if_neg (by simpa using hne)] at hfollow
    exact (Option.some.inj hfollow).symm
  | .file _ | .socket => cases hfollow

theorem walk_append (stack : List (FileNode α)) (names names' : List (List Char)) :
    walk stack (names ++ names') = (walk stack names).bind fun st ↦ walk st names' :=
  List.foldlM_append ..

theorem walk_singleton (stack : List (FileNode α)) (name : List Char) :
    walk stack [name] = follow stack name :=
  bind_pure _

theorem follow_ne_nil {stack stack' : List (FileNode α)} {name : List Char}
    (hfollow : follow stack name = some stack') : stack' ≠ [] := by
  match stack with
  | .directory es :: above =>
    rw [follow] at hfollow
    split_ifs at hfollow with hdot hdotDot habove
    · obtain rfl := Option.some.inj hfollow
      exact List.cons_ne_nil _ _
    · obtain rfl := Option.some.inj hfollow
      exact List.cons_ne_nil _ _
    · obtain rfl := Option.some.inj hfollow
      exact fun h ↦ habove (List.isEmpty_iff.2 h)
    · obtain ⟨n, -, rfl⟩ := Option.map_eq_some_iff.1 hfollow
      exact List.cons_ne_nil _ _
  | [] | .file _ :: _ | .socket :: _ => cases hfollow

theorem walk_ne_nil {stack stack' : List (FileNode α)} (hne : stack ≠ [])
    {names : List (List Char)} (h : walk stack names = some stack') : stack' ≠ [] := by
  induction names generalizing stack with
  | nil =>
    obtain rfl := Option.some.inj h
    exact hne
  | cons name names ih =>
    rw [walk, List.foldlM_cons] at h
    obtain ⟨st, hfollow, hwalk⟩ := Option.bind_eq_some_iff.1 h
    exact ih (follow_ne_nil hfollow) hwalk

/-- One name of a path does the same to a position and to what stands there. -/
theorem walk_stepTo {stack : List (FileNode α)} (hne : stack ≠ []) {name : List Char}
    {names names' : List (List Char)} {st st' : List (FileNode α)}
    (hproper : ∀ name ∈ names, IsProperName name) (hwalk : walk stack names = some st)
    (hstep : stepTo names name = some names') (hfollow : follow st name = some st') :
    walk stack names' = some st' ∧ ∀ name ∈ names', IsProperName name := by
  rw [stepTo] at hstep
  split_ifs at hstep with hskip hdotDot hnil
  · obtain rfl := Option.some.inj hstep
    rw [follow_dot hskip hfollow]
    exact ⟨hwalk, hproper⟩
  · obtain rfl := Option.some.inj hstep
    refine ⟨?_, fun name hname ↦ hproper name (List.dropLast_subset names hname)⟩
    rw [← List.dropLast_append_getLast hnil, walk_append] at hwalk
    obtain ⟨above, habove, hlast⟩ := Option.bind_eq_some_iff.1 hwalk
    rw [walk_singleton] at hlast
    obtain ⟨n, rfl⟩ := follow_of_isProperName (hproper _ (List.getLast_mem hnil)) hlast
    rw [hdotDot] at hfollow
    rw [follow_dotDot (walk_ne_nil hne habove) hfollow]
    exact habove
  · obtain rfl := Option.some.inj hstep
    refine ⟨?_, List.forall_mem_append.2 ⟨hproper, List.forall_mem_singleton.2 ?_⟩⟩
    · rw [walk_append, hwalk]
      exact (walk_singleton st name).trans hfollow
    · exact ⟨fun h ↦ hskip (.inl h), fun h ↦ hskip (.inr h), hdotDot⟩

/-- A walk along a path ends where the walk along its position ends. -/
theorem walk_locate {stack : List (FileNode α)} (hne : stack ≠ []) {components : List (List Char)}
    {names names' : List (List Char)} {st st' : List (FileNode α)}
    (hproper : ∀ name ∈ names, IsProperName name) (hwalk : walk stack names = some st)
    (hlocate : components.foldlM stepTo names = some names')
    (hrun : walk st components = some st') :
    walk stack names' = some st' ∧ ∀ name ∈ names', IsProperName name := by
  induction components generalizing names st with
  | nil =>
    obtain rfl := Option.some.inj hlocate
    obtain rfl := Option.some.inj hrun
    exact ⟨hwalk, hproper⟩
  | cons name components ih =>
    rw [List.foldlM_cons] at hlocate
    rw [walk, List.foldlM_cons] at hrun
    obtain ⟨names₁, hstep, hlocate⟩ := Option.bind_eq_some_iff.1 hlocate
    obtain ⟨st₁, hfollow, hrun⟩ := Option.bind_eq_some_iff.1 hrun
    obtain ⟨hwalk₁, hproper₁⟩ := walk_stepTo hne hproper hwalk hstep hfollow
    exact ih hproper₁ hwalk₁ hlocate hrun

/-- What a path resolves to stands at its position below the directory. -/
theorem resolve_locate {fs : FileSystem α} {base : List Char} {n m : FileNode α}
    {above : List (FileNode α)} (hbase : fs.resolveStack base = some (n :: above))
    {path : List Char} {names : List (List Char)} (hlocate : locateBelow base path = some names)
    (hresolve : fs.resolve path = some m) : n.at? names = some m := by
  rw [locateBelow] at hlocate
  split_ifs at hlocate with hprefix
  obtain ⟨rest, rfl⟩ := List.isPrefixOf_iff_prefix.1 hprefix
  rw [List.drop_left' (by simp)] at hlocate
  rw [resolveStack] at hbase
  split_ifs at hbase with hnil
  rw [resolve, resolveStack] at hresolve
  split_ifs at hresolve with hlen
  · cases hresolve
  · have hstart : fs.start (base ++ ['/'] ++ rest) = fs.start base := by
      rw [start, start, List.append_assoc, List.head?_append_of_ne_nil _ (not_or.1 hnil).1]
    have hsplit : (base ++ ['/'] ++ rest).splitOn '/' = base.splitOn '/' ++ rest.splitOn '/' := by
      rw [List.append_assoc, List.singleton_append, List.splitOn_append_cons_self]
    rw [hstart, hsplit, walk_append, hbase, Option.bind_some] at hresolve
    obtain ⟨st, hwalk, hhead⟩ := Option.bind_eq_some_iff.1 hresolve
    obtain ⟨hnames, hproper⟩ := walk_locate (List.cons_ne_nil n above) (by simp) rfl hlocate hwalk
    rw [← walk_properNames n above hproper, hnames]
    exact hhead

end FileSystem

end PuppetC
