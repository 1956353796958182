import Mathlib.Logic.Function.Basic
import PuppetC.Agent.Apply
import PuppetC.Agent.TextProvider
import PuppetC.Strtod
import PuppetC.Text

/-!
# The provider of files

The agent makes, removes and rewrites the file at the title of a resource, and sets its owner, group
and mode. The calls that only read always succeed, as for a privileged agent; every call that writes
may be refused. Paths are followed through symbolic links, which lead wherever the system says.

## Main definitions

* `FileEntry`, `FileState`, `FileWorld`: what stands at paths, and the system.
* `strtol`: numbers as `strtol` reads them.
* `fileDirectory`, `fileLink`, `fileContent`, `fileSource`, `fileOwner`, `fileMode`: the parts of
  `file_apply`.
* `fileApply`: `file_apply`.
-/

namespace PuppetC

/-! ### The system -/

/-- The target of a symbolic link, which is not empty. -/
structure LinkTarget where
  text : Bytes
  ne_nil : text ≠ []
  deriving DecidableEq

/-- What stands at a path. -/
inductive FileKind where
  | regular (content : Bytes)
  | directory
  | link (target : LinkTarget)
  deriving DecidableEq

/-- What stands at a path, with its owner, its group and the bits of its mode. -/
@[ext] structure FileEntry where
  kind : FileKind
  uid : ℕ
  gid : ℕ
  mode : ℕ
  deriving DecidableEq

/-- What stands at all paths. -/
abbrev FileState := Bytes → Option FileEntry

/-- The calls that write. -/
inductive FileCall where
  | unlink (path : Bytes)
  | rmdir (path : Bytes)
  | mkdir (path : Bytes)
  | symlink (target path : Bytes)
  | write (path : Bytes)
  | chown (path : Bytes)
  | chmod (path : Bytes)

/-- The system: where a link leads, the calls that it permits, the owner, the group and the mode of
what is made, what `chown` leaves of a mode, the users and the groups, and what the server answers
with status 200 to a request. -/
structure FileWorld where
  resolve : Bytes → Bytes → Bytes
  permits : FileCall → FileState → Bool
  made : Bytes → FileKind → ℕ × ℕ × ℕ
  chownMode : ℕ → ℕ
  getpwnam : Bytes → Option ℕ
  getgrnam : Bytes → Option ℕ
  server : Bytes
  fetch : Bytes → Option Bytes

/-- Is it a symbolic link? -/
def FileEntry.isLink (e : FileEntry) : Bool :=
  match e.kind with
  | .link _ => true
  | _ => false

/-- A path followed through up to so many links, less one. -/
def follow (w : FileWorld) (fs : FileState) : ℕ → Bytes → Option Bytes
  | 0, _ => none
  | hops + 1, path =>
    match (fs path).map FileEntry.kind with
    | some (.link target) => follow w fs hops (w.resolve path target.text)
    | _ => some path

/-- Where `stat`, `fopen` and the like arrive. -/
def fullPath (w : FileWorld) (fs : FileState) (path : Bytes) : Option Bytes := follow w fs 41 path

/-- `stat`. -/
def stat (w : FileWorld) (fs : FileState) (path : Bytes) : Option FileEntry :=
  (fullPath w fs path).bind fs

/-- What is made at a path. -/
def FileWorld.entry (w : FileWorld) (path : Bytes) (kind : FileKind) : FileEntry :=
  ⟨kind, (w.made path kind).1, (w.made path kind).2.1, (w.made path kind).2.2⟩

/-- `unlink`. -/
def unlink (w : FileWorld) (fs : FileState) (path : Bytes) : Option FileState :=
  if ((fs path).any fun e ↦ e.kind ≠ .directory) && w.permits (.unlink path) fs then
    some (Function.update fs path none)
  else none

/-- `rmdir`. -/
def rmdir (w : FileWorld) (fs : FileState) (path : Bytes) : Option FileState :=
  if ((fs path).any fun e ↦ e.kind = .directory) && w.permits (.rmdir path) fs then
    some (Function.update fs path none)
  else none

/-- `mkdir`. -/
def mkdir (w : FileWorld) (fs : FileState) (path : Bytes) : Option FileState :=
  if (fs path).isNone && w.permits (.mkdir path) fs then
    some (Function.update fs path (some (w.entry path .directory)))
  else none

/-- `symlink`. -/
def symlink (w : FileWorld) (fs : FileState) (target path : Bytes) : Option FileState :=
  if h : beforeNul target ≠ [] then
    if (fs path).isNone && w.permits (.symlink target path) fs then
      some (Function.update fs path (some (w.entry path (.link ⟨beforeNul target, h⟩))))
    else none
  else none

/-- `read_file_contents`, of up to 10 MiB. -/
def readFileContents (w : FileWorld) (fs : FileState) (path : Bytes) : Option Bytes :=
  match (stat w fs path).map FileEntry.kind with
  | some (.regular content) =>
    if content.length ≤ 10 * 1024 * 1024 then some content else none
  | _ => none

/-- `write_file_contents`: a file keeps its owner, its group and its mode. -/
def writeFileContents (w : FileWorld) (fs : FileState) (path content : Bytes) : Option FileState :=
  (fullPath w fs path).bind fun p ↦
    if ((fs p).all fun e ↦ e.kind ≠ .directory) && w.permits (.write p) fs then
      some (Function.update fs p (some
        { (fs p).getD (w.entry p (.regular [])) with kind := .regular (beforeNul content) }))
    else none

/-- What is opened without following a link. -/
def openNoFollow (fs : FileState) (path : Bytes) : Option FileEntry := (fs path).filter (!·.isLink)

/-! ### Numbers -/

/-- `strtol`, with a base of at most ten: the number, and what comes after it. -/
def strtol (base : ℕ) (s : Bytes) : ℤ × Bytes :=
  let t := s.dropWhile isSpaceChar
  let unsigned := if t.head? = some '-' ∨ t.head? = some '+' then t.tail else t
  let digits := unsigned.takeWhile fun c ↦ c.isDigit && c.toNat < '0'.toNat + base
  let n : ℤ := Nat.ofDigitChars base digits 0
  let value := if t.head? = some '-' then -n else n
  if digits.isEmpty then (0, s)
  else (if value < -2 ^ 63 then -2 ^ 63 else if 2 ^ 63 ≤ value then 2 ^ 63 - 1 else value,
    unsigned.drop digits.length)

/-- A number cut to 32 bits. -/
def toUnsigned32 (n : ℤ) : ℕ := (n % 2 ^ 32).toNat

/-- `get_uid` and `get_gid`: a number, or else a name; `(uid_t)-1` is none. -/
def getId (getnam : Bytes → Option ℕ) (name : Bytes) : Option ℕ :=
  (if (strtol 10 name).2 = [] then some (toUnsigned32 (strtol 10 name).1) else getnam name).filter
    (· ≠ 2 ^ 32 - 1)

/-- `parse_mode`. -/
def parseMode (mode : Bytes) : ℕ := toUnsigned32 (strtol 8 mode).1

/-! ### The provider -/

/-- What a part of `file_apply` does: it returns, or goes on and says whether it changed
something. -/
inductive FileStep where
  | stop (result : ApplyResult) (fs : FileState)
  | go (changed : Bool) (fs : FileState)

/-- One part after another. -/
def FileStep.andThen (s : FileStep) (next : FileState → FileStep) : FileStep :=
  match s with
  | .stop result fs => .stop result fs
  | .go changed fs =>
    match next fs with
    | .stop result fs => .stop result fs
    | .go changed' fs => .go (changed || changed') fs

/-- A call that writes, from where it is made, unless it is only said what would be done. -/
def FileStep.write (noop : Bool) (fs before : FileState)
    (call : FileState → Option FileState) : FileStep :=
  if noop then .stop .skipped fs
  else
    match call before with
    | none => .stop .failed before
    | some fs' => .go true fs'

/-- `fetch_puppet_url`: an empty answer is none. -/
def fetchPuppetUrl (w : FileWorld) (source : Bytes) : Option Bytes :=
  if "modules/".toList.isPrefixOf (source.drop 10) then
    (w.fetch (cutText 4096
      (w.server ++ "/puppet/v3/file_content/".toList ++ source.drop 10))).filter (· ≠ [])
  else none

/-- The content of a source, from the server or from a file. -/
def sourceContent (w : FileWorld) (fs : FileState) (source : Bytes) : Option Bytes :=
  if "puppet:///".toList.isPrefixOf source then fetchPuppetUrl w source
  else readFileContents w fs source

section Provider

variable (w : FileWorld) (r : AgentResource) (noop : Bool) (fs : FileState)

/-- The parameter `ensure`. -/
def AgentResource.ensure : Bytes := (r.param? "ensure").getD "present".toList

/-- `ensure => absent`. -/
def fileAbsent : FileStep :=
  match stat w fs r.title with
  | none => .stop .noop fs
  | some e =>
    if noop then .stop .skipped fs
    else
      match (if e.kind = .directory then rmdir w fs r.title else unlink w fs r.title) with
      | none => .stop .failed fs
      | some fs' => .stop .changed fs'

/-- `ensure => directory`. -/
def fileDirectory : FileStep :=
  match stat w fs r.title with
  | none => .write noop fs fs fun fs ↦ mkdir w fs r.title
  | some e => if e.kind = .directory then .go false fs else .stop .failed fs

/-- `ensure => link`: at most 1023 bytes of a target are read; what `unlink` answers is not looked
at. -/
def fileLink : FileStep :=
  match r.param? "target" with
  | none => .stop .failed fs
  | some target =>
    match (fs r.title).map FileEntry.kind with
    | none => .write noop fs fs fun fs ↦ symlink w fs target r.title
    | some (.link current) =>
      if beforeNul (current.text.take 1023) = beforeNul target then .go false fs
      else .write noop fs ((unlink w fs r.title).getD fs) fun fs ↦ symlink w fs target r.title
    | some _ => .stop .failed fs

/-- Any other `ensure`: the file is made, or gets its `content`. -/
def fileContent : FileStep :=
  match stat w fs r.title with
  | none =>
    .write noop fs fs fun fs ↦ writeFileContents w fs r.title ((r.param? "content").getD [])
  | some _ =>
    match r.param? "content" with
    | none => .go false fs
    | some content =>
      match readFileContents w fs r.title with
      | none => .go false fs
      | some current =>
        if beforeNul current = beforeNul content then .go false fs
        else .write noop fs fs fun fs ↦ writeFileContents w fs r.title content

/-- The file gets the content of its `source`, if it has no `content`. -/
def fileSource : FileStep :=
  match r.param? "source", r.param? "content" with
  | some source, none =>
    match sourceContent w fs source with
    | none => .stop .failed fs
    | some content =>
      if (readFileContents w fs r.title).any fun current ↦
          beforeNul current = beforeNul content then .go false fs
      else .write noop fs fs fun fs ↦ writeFileContents w fs r.title content
  | _, _ => .go false fs

/-- The owner and the group; it is not remembered what would be changed. -/
def fileOwner : FileStep :=
  let uid := (r.param? "owner").bind (getId w.getpwnam)
  let gid := (r.param? "group").bind (getId w.getgrnam)
  match openNoFollow fs r.title with
  | none => .go false fs
  | some e =>
    if uid.getD e.uid = e.uid ∧ gid.getD e.gid = e.gid then .go false fs
    else if noop then .go false fs
    else if w.permits (.chown r.title) fs then
      .go true (Function.update fs r.title (some
        ⟨e.kind, uid.getD e.uid, gid.getD e.gid, w.chownMode e.mode⟩))
    else .stop .failed fs

/-- The mode; it is not remembered what would be changed. -/
def fileMode : FileStep :=
  match (r.param? "mode").map parseMode, openNoFollow fs r.title with
  | some (mode + 1), some e =>
    if e.mode % 4096 = mode + 1 then .go false fs
    else if noop then .go false fs
    else if w.permits (.chmod r.title) fs then
      .go true (Function.update fs r.title (some { e with mode := (mode + 1) % 4096 }))
    else .stop .failed fs
  | _, _ => .go false fs

/-- What `ensure`, `content` and `source` are about. -/
def fileBody : FileStep :=
  if r.ensure = "directory".toList then fileDirectory w r noop fs
  else if r.ensure = "link".toList then fileLink w r noop fs
  else (fileContent w r noop fs).andThen (fileSource w r noop)

/-- `file_apply`: what it returns, and the files after it. -/
def fileApply : ApplyResult × FileState :=
  match (if r.ensure = "absent".toList then fileAbsent w r noop fs
    else ((fileBody w r noop fs).andThen (fileOwner w r noop)).andThen (fileMode w r noop)) with
  | .stop result fs => (result, fs)
  | .go changed fs => (if changed then (if noop then .skipped else .changed) else .noop, fs)

end Provider

end PuppetC
