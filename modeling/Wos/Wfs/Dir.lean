import Mathlib.Data.List.DropRight
import Wos.Wfs.File

/-!
# Directories and paths

The directory functions of `kernel/fs/wfs.c` and the operations on paths that rest on them. A
directory is a file of 32-byte entries, read and written with `readFile` and `writeFile`; all the
functions that look through one share the loop `dirScan`.

Paths and names are lists of non-NUL bytes, without the terminating NUL.

## Main definitions

* `dirScan`, `dirFind`, `dirAdd`, `dirRemove`, `dirIsEmpty`: one directory;
* `lookup`, `resolveParent`: paths;
* `create`, `unlink`, `rename`: the operations that change the namespace.
-/

namespace Wos.Wfs

/-- A path or a name: the bytes of a C string. -/
abbrev Name := List UInt8

/-- The name `.`. -/
def dot : Name := [46]

/-- The name `..`. -/
def dotDot : Name := [46, 46]

lemma dot_no_nul : ∀ b ∈ dot, b ≠ 0 := by simp [dot]

lemma dotDot_no_nul : ∀ b ∈ dotDot, b ≠ 0 := by simp [dotDot]

/-! ## One directory -/

/-- The loop of `dir_find`, `dir_add`, `dir_remove` and `dir_is_empty`: from offset `off` on, the
first entry that satisfies `hit`, with its offset. `ent` is the buffer the entries are read into; a
short read leaves the rest of it as it was. -/
def dirScan (v : Volume) (dirIno size : ℕ) (hit : Dirent → Bool) :
    ℕ → ℕ → Buf → Option (ℕ × Dirent)
  | 0, _, _ => none
  | fuel + 1, off, ent =>
    if size ≤ off then none
    else
      match readFile v dirIno off 32 with
      | .error _ => none
      | .ok bytes =>
        if bytes = [] then none
        else
          let ent := ent.copy 0 (Buf.ofList bytes) bytes.length
          if hit (Dirent.decode ent) then some (off, Dirent.decode ent)
          else dirScan v dirIno size hit fuel (off + 32) ent

/-- The whole directory, from its first entry; a directory of `size` bytes has at most
`size / 32 + 1` entries. -/
def dirSearch (v : Volume) (dirIno size : ℕ) (hit : Dirent → Bool) : Option (ℕ × Dirent) :=
  dirScan v dirIno size hit (size / 32 + 1) 0 v.env.junk

/-- Whether an entry is in use and has the given name. -/
def Dirent.isNamed (e : Dirent) (name : Name) : Bool := e.ino ≠ 0 ∧ e.name = name

/-- `dir_find`. -/
def dirFind (v : Volume) (dirIno : ℕ) (name : Name) : Except Errno ℕ :=
  match readInode v dirIno with
  | .error e => .error e
  | .ok dir =>
    if dir.type ≠ typeDir then .error .ENOTDIR
    else
      match dirSearch v dirIno dir.size (·.isNamed name) with
      | none => .error .ENOENT
      | some (_, e) => .ok e.ino

/-- Where `dir_add` puts an entry: in the first free slot, or at the end. -/
def freeSlot (v : Volume) (dirIno size : ℕ) : ℕ :=
  match dirSearch v dirIno size (·.ino = 0) with
  | none => size
  | some (off, _) => off

/-- `dir_add`: add an entry, reusing a free slot if there is one. -/
def dirAdd (v : Volume) (dirIno : ℕ) (name : Name) (ino : ℕ) : Except Errno Unit × Volume :=
  if nameMax < name.length then (.error .ENAMETOOLONG, v)
  else
    match readInode v dirIno with
    | .error e => (.error e, v)
    | .ok dir =>
      match writeFile v dirIno (freeSlot v dirIno dir.size) (Dirent.encode ⟨ino, name⟩) 32 with
      | (.error e, v) => (.error e, v)
      | (.ok n, v) => (if n = 32 then .ok () else .error Errno.EIO, v)

/-- `dir_remove`: clear the entry with the given name. -/
def dirRemove (v : Volume) (dirIno : ℕ) (name : Name) : Except Errno Unit × Volume :=
  match readInode v dirIno with
  | .error e => (.error e, v)
  | .ok dir =>
    match dirSearch v dirIno dir.size (·.isNamed name) with
    | none => (.error .ENOENT, v)
    | some (off, _) =>
      match writeFile v dirIno off Buf.zero 32 with
      | (.error e, v) => (.error e, v)
      | (.ok _, v) => (.ok (), v)

/-- `dir_is_empty`: whether the directory holds nothing but `.` and `..`. -/
def dirIsEmpty (v : Volume) (dirIno : ℕ) : Bool :=
  match readInode v dirIno with
  | .error _ => false
  | .ok dir =>
    (dirSearch v dirIno dir.size fun e => e.ino ≠ 0 ∧ e.name ≠ dot ∧ e.name ≠ dotDot).isNone

/-! ## Paths -/

/-- The byte `/`. -/
def slash : UInt8 := 47

/-- The components of a path: what stands between its slashes, empty stretches left out. -/
def components (path : Name) : List Name := (path.splitOnP (· = slash)).filter (· ≠ [])

/-- The loop of `wfs_lookup`: follow the components from inode `ino` on. -/
def walk (v : Volume) (ino : ℕ) : List Name → Except Errno ℕ
  | [] => .ok ino
  | name :: rest =>
    if nameMax < name.length then .error .ENAMETOOLONG
    else
      match dirFind v ino name with
      | .error e => .error e
      | .ok next => walk v next rest

/-- `wfs_lookup`. -/
def lookup (v : Volume) (path : Name) : Except Errno ℕ :=
  if v.mounted = false then .error Errno.EIO
  else if path.head? ≠ some slash then .error .EINVAL
  else walk v v.sb.rootInode (components path)

/-- What follows the last slash of a path; the whole path when it has none. -/
def lastName (path : Name) : Name := path.rtakeWhile (· ≠ slash)

/-- `resolve_parent`: the inode of the parent and the final component. -/
def resolveParent (v : Volume) (path : Name) : Except Errno (ℕ × Name) :=
  if slash ∉ path then .error .EINVAL
  else
    let name := lastName path
    if name = [] then .error .EINVAL
    else if nameMax < name.length then .error .ENAMETOOLONG
    else
      let parent := path.take (path.length - name.length - 1)
      if parent = [] then .ok (v.sb.rootInode, name)
      else if pathMax < parent.length then .error .ENAMETOOLONG
      else
        match lookup v parent with
        | .error e => .error e
        | .ok ino => .ok (ino, name)

/-! ## Changing the namespace -/

/-- The types `wfs_create` is given. -/
inductive FileType
  | file
  | dir
  deriving DecidableEq

/-- The `WFS_TYPE_*` code. -/
def FileType.code : FileType → ℕ
  | .file => typeFile
  | .dir => typeDir

/-- The entries `.` and `..` of a new directory. -/
def addDots (v : Volume) (ino parent : ℕ) : Except Errno Unit × Volume :=
  match dirAdd v ino dot ino with
  | (.error e, v) => (.error e, v)
  | (.ok (), v) => dirAdd v ino dotDot parent

/-- `wfs_create`: the inode number it stores through `ino_out`. -/
def create (v : Volume) (path : Name) (type : FileType) : Except Errno ℕ × Volume :=
  if v.mounted = false then (.error Errno.EIO, v)
  else
    match resolveParent v path with
    | .error e => (.error e, v)
    | .ok (parent, name) =>
      match dirFind v parent name with
      | .ok _ => (.error .EEXIST, v)
      | .error _ =>
        match inodeAlloc v type.code with
        | (.error e, v) => (.error e, v)
        | (.ok ino, v) =>
          match if type = .dir then addDots v ino parent else (.ok (), v) with
          | (.error e, v) => (.error e, inodeFree v ino)
          | (.ok (), v) =>
            match dirAdd v parent name ino with
            | (.error e, v) => (.error e, inodeFree (truncate v ino).2 ino)
            | (.ok (), v) => (.ok ino, v)

/-- `wfs_unlink`. -/
def unlink (v : Volume) (path : Name) : Except Errno Unit × Volume :=
  if v.mounted = false then (.error Errno.EIO, v)
  else
    match resolveParent v path with
    | .error e => (.error e, v)
    | .ok (parent, name) =>
      if name = dot ∨ name = dotDot then (.error .EINVAL, v)
      else
        match dirFind v parent name with
        | .error e => (.error e, v)
        | .ok ino =>
          match readInode v ino with
          | .error e => (.error e, v)
          | .ok n =>
            if n.type = typeDir ∧ dirIsEmpty v ino = false then (.error .ENOTEMPTY, v)
            else
              match dirRemove v parent name with
              | (.error e, v) => (.error e, v)
              | (.ok (), v) => (.ok (), inodeFree (truncate v ino).2 ino)

/-- The walk up from the destination of a renamed directory: whether it meets the directory
within so many steps. -/
def meetsGoingUp (v : Volume) (ino : ℕ) : ℕ → ℕ → Bool
  | 0, _ => false
  | steps + 1, at' =>
    if at' = ino then true
    else if at' = rootIno then false
    else
      match dirFind v at' dotDot with
      | .error _ => false
      | .ok up => if up = at' then false else meetsGoingUp v ino steps up

/-- The part of `wfs_rename` that removes what stands in the way: a file already called by the
new name. The result says whether the rename is already over. -/
def displace (v : Volume) (ino toParent : ℕ) (toName : Name) : Except Errno Bool × Volume :=
  match dirFind v toParent toName with
  | .error _ => (.ok false, v)
  | .ok existing =>
    if existing = ino then (.ok true, v)
    else
      match readInode v existing with
      | .error e => (.error e, v)
      | .ok victim =>
        if victim.type = typeDir then (.error .EISDIR, v)
        else
          match dirRemove v toParent toName with
          | (.error e, v) => (.error e, v)
          | (.ok (), v) => (.ok false, inodeFree (truncate v existing).2 existing)

/-- The part of `wfs_rename` that moves the entry and, for a directory that changed parents,
rewrites its `..`. -/
def moveEntry (v : Volume) (ino : ℕ) (isDir : Bool) (fromParent : ℕ) (fromName : Name)
    (toParent : ℕ) (toName : Name) : Except Errno Unit × Volume :=
  match dirAdd v toParent toName ino with
  | (.error e, v) => (.error e, v)
  | (.ok (), v) =>
    match dirRemove v fromParent fromName with
    | (.error e, v) => (.error e, (dirRemove v toParent toName).2)
    | (.ok (), v) =>
      if isDir ∧ fromParent ≠ toParent then
        (.ok (), (dirAdd (dirRemove v ino dotDot).2 ino dotDot toParent).2)
      else (.ok (), v)

/-- `wfs_rename`. -/
def rename (v : Volume) (fromPath toPath : Name) : Except Errno Unit × Volume :=
  if v.mounted = false then (.error Errno.EIO, v)
  else
    match resolveParent v fromPath with
    | .error e => (.error e, v)
    | .ok (fromParent, fromName) =>
      match resolveParent v toPath with
      | .error e => (.error e, v)
      | .ok (toParent, toName) =>
        if fromName = dot ∨ fromName = dotDot ∨ toName = dot ∨ toName = dotDot then
          (.error .EINVAL, v)
        else
          match dirFind v fromParent fromName with
          | .error e => (.error e, v)
          | .ok ino =>
            match readInode v ino with
            | .error e => (.error e, v)
            | .ok n =>
              if fromParent = toParent ∧ fromName = toName then (.ok (), v)
              else if n.type = typeDir ∧ meetsGoingUp v ino 256 toParent = true then
                (.error .EINVAL, v)
              else
                match displace v ino toParent toName with
                | (.error e, v) => (.error e, v)
                | (.ok true, v) => (.ok (), v)
                | (.ok false, v) =>
                  moveEntry v ino (n.type = typeDir) fromParent fromName toParent toName

end Wos.Wfs
