import Wos.Wfs.Contents
import Wos.Wfs.Dir

/-!
# Building a volume: `tools/mkwfs.c`

The host tool that makes a WFS image from a directory tree. It fills the volume in memory, with
its own block and inode allocation and its own copy of the block map, and writes it out once.
Where the tool gives up (`die`) the functions here return `none`.

The superblock, the bitmap and the inode table are pointers into the image in memory; the model
keeps them apart, as the typed `View`. That is what they are as long as the regions do not overlap,
so up to the sizes at which 32-bit block counts wrap around.

The host is a function from paths to what stands there, and `addHostDir` walks it as the tool does,
with child paths cut at 4095 bytes. A staging directory is the tree of files and directories below a
path; `addTree` is the walk over that tree, and `mkwfsMain_eq` says that the two are the same as long
as no path is cut.

## Main definitions

* `Image`: the volume under construction;
* `Host`, `addHostDir`, `mkwfsMain`: the tool;
* `HostDir`, `mkwfs`: a staging directory, and the image of it;
* `Image.disk`: the disk the tool leaves.

## Main results

* `mkwfsMain_eq`: the tool makes the image of the staging directory.
-/

namespace Wos.Mkwfs

open Wfs

/-- The volume under construction. -/
structure Image where
  view : View
  /-- `built_blocks`: how many blocks are in memory. -/
  built : ℕ
  /-- `build_time`. -/
  buildTime : ℕ

/-- The image with its contents replaced. -/
def Image.set (img : Image) (c : View) : Image := { img with view := c }

@[simp]
lemma Image.set_view (img : Image) (c : View) : (img.set c).view = c := rfl

/-! ## Blocks and inodes -/

/-- `block_ptr` does not give up. -/
def Image.InMemory (img : Image) (b : ℕ) : Prop := b < img.view.totalBlocks ∧ b < img.built

instance (img : Image) (b : ℕ) : Decidable (img.InMemory b) := by
  unfold Image.InMemory
  infer_instance

/-- `block_alloc`. -/
def blockAlloc (img : Image) : Option (ℕ × Image) :=
  match (List.range' img.view.dataStart (img.view.totalBlocks - img.view.dataStart)).find?
      fun b => !img.view.used b with
  | none => none
  | some b => if img.InMemory b then some (b, img.set (img.view.take b)) else none

/-- The inode `inode_alloc` sets up. -/
def newInode (buildTime type : ℕ) : Inode :=
  { Inode.zero with type := type, links := 1, mtime := buildTime }

/-- `inode_alloc`. -/
def inodeAlloc (img : Image) (type : ℕ) : Option (ℕ × Image) :=
  match (List.range' rootIno (img.view.totalInodes - rootIno)).find?
      fun i => (img.view.inodes i).type = typeFree with
  | none => none
  | some i => some (i, img.set ((img.view.setInode i (newInode img.buildTime type)).setFreeInodes
      (dec32 img.view.freeInodes)))

/-! ## The block map -/

/-- The first lines of each tier of `bmap`: a pointer of the inode gets a block if it has none. -/
def fillPtr (img : Image) (ino : ℕ) (f : PtrField) : Option Image :=
  if (img.view.inodes ino).ptr f ≠ 0 then some img
  else (blockAlloc img).map fun (b, img) =>
    img.set (img.view.setInode ino
      { (img.view.inodes ino).setPtr b f with blocks := inc32 (img.view.inodes ino).blocks })

/-- `table_slot`. -/
def tableSlot (img : Image) (table index ino : ℕ) : Option (ℕ × Image) :=
  if ¬ img.InMemory table then none
  else if (img.view.data table).word index ≠ 0 then
    some ((img.view.data table).word index, img)
  else (blockAlloc img).map fun (b, img) =>
    (b, img.set ((img.view.setData table ((img.view.data table).setWord index b)).setInode ino
      { img.view.inodes ino with blocks := inc32 (img.view.inodes ino).blocks }))

/-- The last two tiers of `bmap`. -/
def bmapDouble (img : Image) (ino index : ℕ) : Option (ℕ × Image) :=
  (fillPtr img ino .doubleIndirect).bind fun img =>
  (tableSlot img (img.view.inodes ino).doubleIndirect (index / 256) ino).bind fun (middle, img) =>
  tableSlot img middle (index % 256) ino

/-- `bmap`: the disk block of a block of a file, allocated if it is not there. -/
def bmap (img : Image) (ino index : ℕ) : Option (ℕ × Image) :=
  if h : index < 10 then
    (fillPtr img ino (.direct ⟨index, h⟩)).map fun img =>
      ((img.view.inodes ino).direct ⟨index, h⟩, img)
  else if index - 10 < 256 then
    (fillPtr img ino .indirect).bind fun img =>
      tableSlot img (img.view.inodes ino).indirect (index - 10) ino
  else if 256 * 256 ≤ index - 10 - 256 then none
  else bmapDouble img ino (index - 10 - 256)

/-! ## Files and directories -/

/-- The loop of `file_write`. -/
def writeLoop (ino offset : ℕ) (buf : Buf) (len : ℕ) : ℕ → Image → ℕ → Option Image
  | 0, img, _ => some img
  | fuel + 1, img, done =>
    if len ≤ done then some img
    else
      let pos := (offset + done) % 4294967296
      let chunk := min (1024 - pos % 1024) (len - done)
      match bmap img ino (pos / 1024) with
      | none => none
      | some (b, img) =>
        if img.InMemory b then
          writeLoop ino offset buf len fuel
            (img.set (img.view.setData b
              ((img.view.data b).copy (pos % 1024) (buf.drop done) chunk))) (done + chunk)
        else none

/-- `file_write`. -/
def fileWrite (img : Image) (ino offset : ℕ) (buf : Buf) (len : ℕ) : Option Image :=
  (writeLoop ino offset buf len len img 0).map fun img =>
    if (img.view.inodes ino).size < (offset + len) % 4294967296 then
      img.set (img.view.setInode ino
        { img.view.inodes ino with size := (offset + len) % 4294967296 })
    else img

/-- `dir_add`: always at the end. -/
def dirAdd (img : Image) (dirIno : ℕ) (name : Name) (ino : ℕ) : Option Image :=
  if nameMax < name.length then none
  else fileWrite img dirIno (img.view.inodes dirIno).size (Dirent.encode ⟨ino, name⟩) 32

/-- The two entries every directory starts with. -/
def addDots (img : Image) (ino parent : ℕ) : Option Image :=
  (dirAdd img ino dot ino).bind fun img => dirAdd img ino dotDot parent

/-- `make_dir`. -/
def makeDir (img : Image) (parent : ℕ) (name : Name) : Option (ℕ × Image) :=
  (inodeAlloc img typeDir).bind fun (ino, img) =>
  (addDots img ino parent).bind fun img =>
  (dirAdd img parent name ino).map fun img => (ino, img)

/-- `add_host_file`; `mtime` is the time of the host file, if `stat` gives one. -/
def addHostFile (img : Image) (parent : ℕ) (name : Name) (data : List UInt8)
    (mtime : Option ℕ) : Option Image :=
  if maxFileSize < data.length % 4294967296 then none
  else
    (inodeAlloc img typeFile).bind fun (ino, img) =>
    (fileWrite img ino 0 (Buf.ofList data) (data.length % 4294967296)).bind fun img =>
    let n := img.view.inodes ino
    dirAdd (img.set (img.view.setInode ino (n.stamp (data.length % 4294967296)
      (mtime.elim n.mtime (· % 4294967296))))) parent name ino

/-- What `stat`, `fopen` and `readdir` find at a path of the host. -/
inductive HostEntry
  | file (data : List UInt8) (mtime : Option ℕ)
  | dir (names : List Name)
  | other

/-- The file system of the host, by path; there is nothing where `stat` fails. -/
abbrev Host := Name → Option HostEntry

/-- `child`, a buffer of 4096 bytes that a longer path is cut to. -/
def childPath (path name : Name) : Name := (path ++ slash :: name).take 4095

/-- What `add_host_dir` does with one entry of `readdir`. -/
def addHostEntry (host : Host) (descend : Image → ℕ → Name → Option Image) (parent : ℕ)
    (path : Name) (img : Image) (name : Name) : Option Image :=
  if name = dot ∨ name = dotDot then some img
  else
    match host (childPath path name) with
    | some (.dir _) =>
      (makeDir img parent name).bind fun (ino, img) => descend img ino (childPath path name)
    | some (.file data mtime) => addHostFile img parent name data mtime
    | _ => some img

/-- `add_host_dir`. Each level takes an inode before it starts, so a walk that is deeper than there
are inodes has given up. -/
def addHostDir (host : Host) : ℕ → Image → ℕ → Name → Option Image
  | 0, _, _, _ => none
  | depth + 1, img, parent, path =>
    match host path with
    | some (.dir names) => names.foldlM (addHostEntry host (addHostDir host depth) parent path) img
    | _ => none

/-- A staging directory: the entries, in the order `readdir` returns them. -/
inductive HostDir
  | nil
  | file (name : Name) (data : List UInt8) (mtime : Option ℕ) (rest : HostDir)
  | dir (name : Name) (sub rest : HostDir)

/-- The walk over a staging directory. -/
def addTree (img : Image) (parent : ℕ) : HostDir → Option Image
  | .nil => some img
  | .file name data mtime rest =>
    (addHostFile img parent name data mtime).bind fun img => addTree img parent rest
  | .dir name sub rest =>
    (makeDir img parent name).bind fun (ino, img) =>
    (addTree img ino sub).bind fun img => addTree img parent rest

/-! ## The whole volume -/

/-- The superblock `main` sets up for a volume of so many blocks. -/
def layout (imageBlocks : ℕ) : Superblock :=
  let bitmapBlocks := (imageBlocks + 8191) % 4294967296 / 8192
  let totalInodes := (max (imageBlocks / 32) 64 + 15) / 16 * 16
  let inodeBlocks := totalInodes / 16
  { magic := magic
    blockSize := 1024
    totalBlocks := imageBlocks
    freeBlocks := imageBlocks - (1 + bitmapBlocks + inodeBlocks)
    totalInodes := totalInodes
    freeInodes := totalInodes - rootIno
    bitmapStart := 1
    bitmapBlocks := bitmapBlocks
    inodeStart := 1 + bitmapBlocks
    inodeBlocks := inodeBlocks
    dataStart := 1 + bitmapBlocks + inodeBlocks
    rootInode := rootIno }

/-- `DATA_ROOM_BLOCKS`. -/
def dataRoomBlocks : ℕ := 256 * 1024

/-- The image before anything is put into it: `calloc`ed, the metadata marked as used. -/
def emptyImage (imageBlocks buildTime : ℕ) : Image where
  view :=
    { dataStart := (layout imageBlocks).dataStart
      totalBlocks := imageBlocks
      totalInodes := (layout imageBlocks).totalInodes
      inodes := fun _ => Inode.zero
      data := fun _ => Buf.zero
      used := fun b => b < (layout imageBlocks).dataStart
      freeBlocks := (layout imageBlocks).freeBlocks
      freeInodes := (layout imageBlocks).freeInodes }
  built := min ((layout imageBlocks).dataStart + dataRoomBlocks) imageBlocks
  buildTime := buildTime

/-- The root directory, which names itself as its parent. -/
def makeRoot (img : Image) : Option Image :=
  (inodeAlloc img typeDir).bind fun (root, img) =>
    if root ≠ rootIno then none else addDots img root root

/-- `main`, for the path of the staging directory and a volume of so many MiB. -/
def mkwfsMain (host : Host) (sizeMb time : ℕ) (path : Name) : Option Image :=
  if sizeMb < 1 then none
  else
    (makeRoot (emptyImage (sizeMb * 1024 % 4294967296) (time % 4294967296))).bind fun img =>
      addHostDir host (layout (sizeMb * 1024 % 4294967296)).totalInodes img rootIno path

/-- The image of a staging directory. -/
def mkwfs (sizeMb time : ℕ) (staging : HostDir) : Option Image :=
  if sizeMb < 1 then none
  else
    (makeRoot (emptyImage (sizeMb * 1024 % 4294967296) (time % 4294967296))).bind fun img =>
      addTree img rootIno staging

/-- The superblock of the image. -/
def Image.superblock (img : Image) : Superblock :=
  { layout img.view.totalBlocks with
    freeBlocks := img.view.freeBlocks, freeInodes := img.view.freeInodes }

/-- `written_blocks`: one past the last block that is written out. -/
def Image.writtenBlocks (img : Image) : ℕ :=
  (List.range' img.view.dataStart (img.built - img.view.dataStart)).foldl
    (fun written b => if img.view.used b then b + 1 else written) img.view.dataStart

/-- A block of the image in memory. -/
def Image.block (img : Image) (b : ℕ) : Buf :=
  let sb := img.superblock
  if b = 0 then sb.encode
  else if b < sb.inodeStart then bitmapImage img.view.used (b - sb.bitmapStart)
  else if b < sb.dataStart then fun k =>
    (img.view.inodes (16 * (b - sb.inodeStart) + k / 64)).encode (k % 64)
  else img.view.data b

/-- The device after the image is written to it; `old` is what it held before. -/
def Image.disk (img : Image) (old : ℕ → Buf) (b : ℕ) : Buf :=
  if b < img.writtenBlocks then img.block b else old b

/-! ## The staging directory on the host -/

/-- The names in a staging directory. -/
def HostDir.names : HostDir → List Name
  | .nil => []
  | .file name _ _ rest => name :: rest.names
  | .dir name _ rest => name :: rest.names

/-- What a host file system allows as the name of an entry. -/
structure IsHostName (name : Name) : Prop where
  ne_dot : name ≠ dot
  ne_dotDot : name ≠ dotDot
  no_nul : ∀ b ∈ name, b ≠ 0

/-- A directory as a host file system can hold it: no name stands in it twice. -/
def HostDir.Valid : HostDir → Prop
  | .nil => True
  | .file name _ _ rest => IsHostName name ∧ name ∉ rest.names ∧ rest.Valid
  | .dir name sub rest => IsHostName name ∧ name ∉ rest.names ∧ sub.Valid ∧ rest.Valid

/-- `readdir` returns these names, with `.` and `..` among them. -/
def HostLists (host : Host) (path : Name) (names : List Name) : Prop :=
  ∃ all, host path = some (.dir all) ∧ all.filter (fun n => !(n = dot ∨ n = dotDot)) = names

/-- The entries of the staging directory are what the host has below the path. -/
def HostDir.Below (host : Host) (path : Name) : HostDir → Prop
  | .nil => True
  | .file name data mtime rest =>
    host (path ++ slash :: name) = some (.file data mtime) ∧ rest.Below host path
  | .dir name sub rest =>
    HostLists host (path ++ slash :: name) sub.names ∧ sub.Below host (path ++ slash :: name) ∧
      rest.Below host path

/-- The staging directory is what the host has at the path. -/
structure HostDir.IsAt (h : HostDir) (host : Host) (path : Name) : Prop where
  lists : HostLists host path h.names
  below : h.Below host path

/-- Below a path of so many bytes, every path of the staging directory is shorter than 4096 bytes. -/
def HostDir.Short (length : ℕ) : HostDir → Prop
  | .nil => True
  | .file name _ _ rest => length + 1 + name.length < 4096 ∧ rest.Short length
  | .dir name sub rest =>
    length + 1 + name.length < 4096 ∧ sub.Short (length + 1 + name.length) ∧ rest.Short length

/-- How many nodes there are in a directory and below it. -/
def HostDir.nodes : HostDir → ℕ
  | .nil => 0
  | .file _ _ _ rest => 1 + rest.nodes
  | .dir _ sub rest => 1 + sub.nodes + rest.nodes

/-- How deep the directories are nested. -/
def HostDir.depth : HostDir → ℕ
  | .nil => 0
  | .file _ _ _ rest => rest.depth
  | .dir _ sub rest => max (sub.depth + 1) rest.depth

/-- A path that is short enough is not cut. -/
lemma childPath_eq {path name : Name} (h : path.length + 1 + name.length < 4096) :
    childPath path name = path ++ slash :: name :=
  List.take_of_length_le (by simp; omega)

variable {host : Host}

/-- `add_host_dir` on a directory is its loop over the names that are not skipped. -/
lemma addHostDir_of_lists {path : Name} {names : List Name} (h : HostLists host path names) (depth : ℕ)
    (img : Image) (parent : ℕ) : addHostDir host (depth + 1) img parent path =
      names.foldlM (addHostEntry host (addHostDir host depth) parent path) img := by
  obtain ⟨all, hall, rfl⟩ := h
  rw [addHostDir, hall, List.foldlM_filter]
  dsimp only
  congr 1
  funext img name
  by_cases hdots : name = dot ∨ name = dotDot
  · simp [addHostEntry, hdots]
  · simp [hdots]

/-- The loop of `add_host_dir` over the entries of a staging directory. -/
theorem foldlM_addHostEntry (h : HostDir) (hvalid : h.Valid) {path : Name}
    (hbelow : h.Below host path) (hshort : h.Short path.length) {depth : ℕ} (hdepth : h.depth ≤ depth)
    (img : Image) (parent : ℕ) :
    h.names.foldlM (addHostEntry host (addHostDir host depth) parent path) img =
      addTree img parent h := by
  induction h generalizing path depth img parent with
  | nil => rfl
  | file name data mtime rest ih =>
    obtain ⟨hname, -, hrest⟩ := hvalid
    obtain ⟨hlen, hshort⟩ := hshort
    have hentry : addHostEntry host (addHostDir host depth) parent path img name =
        addHostFile img parent name data mtime := by
      rw [addHostEntry, if_neg (not_or.mpr ⟨hname.ne_dot, hname.ne_dotDot⟩), childPath_eq hlen,
        hbelow.1]
    rw [HostDir.names, List.foldlM_cons, hentry, addTree]
    exact bind_congr fun img => ih hrest hbelow.2 hshort hdepth img parent
  | dir name sub rest ihsub ih =>
    obtain ⟨hname, -, hsub, hrest⟩ := hvalid
    obtain ⟨hlen, hshort, hshort'⟩ := hshort
    obtain ⟨hlists, hbelow, hbelow'⟩ := hbelow
    have hdepth' := max_le_iff.mp hdepth
    obtain ⟨depth, rfl⟩ := Nat.exists_eq_succ_of_ne_zero (show depth ≠ 0 by omega)
    have hentry : addHostEntry host (addHostDir host (depth + 1)) parent path img name =
        (makeDir img parent name).bind fun (ino, img) => addTree img ino sub := by
      obtain ⟨all, hall, hnames⟩ := hlists
      rw [addHostEntry, if_neg (not_or.mpr ⟨hname.ne_dot, hname.ne_dotDot⟩), childPath_eq hlen,
        hall]
      dsimp only
      congr 1
      funext ⟨ino, img⟩
      rw [addHostDir_of_lists ⟨all, hall, hnames⟩]
      have hlength : (path ++ slash :: name).length = path.length + 1 + name.length := by
        rw [List.length_append, List.length_cons]
        omega
      exact ihsub hsub hbelow (hlength ▸ hshort) (by omega) img ino
    rw [HostDir.names, List.foldlM_cons, hentry, addTree]
    refine (Option.bind_assoc ..).trans ?_
    congr 1
    funext ⟨ino, img⟩
    exact bind_congr fun img => ih hrest hbelow' hshort' hdepth'.2 img parent

/-- Every level of directories has a node of its own. -/
lemma HostDir.depth_le (h : HostDir) : h.depth ≤ h.nodes := by
  induction h with
  | nil => exact le_rfl
  | file name data mtime rest ih => exact ih.trans (Nat.le_add_left _ _)
  | dir name sub rest ihsub ih =>
    rw [depth, nodes]
    omega

/-- The tool makes the image of the staging directory, if no path is cut. -/
theorem mkwfsMain_eq {h : HostDir} (hvalid : h.Valid) {path : Name} (hat : h.IsAt host path)
    (hshort : h.Short path.length) {sizeMb : ℕ}
    (hdepth : h.nodes < (layout (sizeMb * 1024 % 4294967296)).totalInodes) (time : ℕ) :
    mkwfsMain host sizeMb time path = mkwfs sizeMb time h := by
  rw [mkwfsMain, mkwfs]
  congr 2
  funext img
  obtain ⟨depth, hinodes⟩ := Nat.exists_eq_succ_of_ne_zero (Nat.ne_zero_of_lt hdepth)
  rw [hinodes, addHostDir_of_lists hat.lists]
  have hle := h.depth_le
  exact foldlM_addHostEntry h hvalid hat.below hshort (by omega) img rootIno

end Wos.Mkwfs
