import Wos.Wfs.Volume

/-!
# File contents

The block map of an inode and the functions of `kernel/fs/wfs.c` that read, write and release a
file's blocks. `bmap` and what it calls work on a copy of the inode in memory and report whether
that copy changed; `MapState` is that copy together with the volume.

## Main definitions

* `fillSlot`, `tableSlot`, `bmap`: from an index in the file to a block of the device;
* `freeTable`, `truncate`: releasing every block;
* `readFile`, `writeFile`: `wfs_read` and `wfs_write`.
-/

namespace Wos.Wfs

/-! ## Block mapping -/

/-- The fields of an inode that hold a block number. -/
inductive PtrField
  | direct (i : Fin 10)
  | indirect
  | doubleIndirect
  deriving DecidableEq

/-- The block number in a field. -/
def Inode.ptr (n : Inode) : PtrField → ℕ
  | .direct i => n.direct i
  | .indirect => n.indirect
  | .doubleIndirect => n.doubleIndirect

/-- The inode with the block number in a field replaced. -/
def Inode.setPtr (n : Inode) (b : ℕ) : PtrField → Inode
  | .direct i => { n with direct := Function.update n.direct i b }
  | .indirect => { n with indirect := b }
  | .doubleIndirect => { n with doubleIndirect := b }

/-- The volume, the in-memory copy of an inode and whether that copy changed. -/
structure MapState where
  vol : Volume
  inode : Inode
  dirty : Bool

/-- `fill_slot`: fill in a block number of the inode that is not there yet. -/
def fillSlot (m : MapState) (f : PtrField) (alloc : Bool) : Except Errno Unit × MapState :=
  if m.inode.ptr f ≠ 0 ∨ alloc = false then (.ok (), m)
  else
    let (b, vol) := blockAlloc m.vol
    if b = 0 then (.error .ENOSPC, { m with vol := vol })
    else
      let n := m.inode.setPtr b f
      (.ok (), { vol := vol, inode := { n with blocks := inc32 n.blocks }, dirty := true })

/-- `table_slot`: the block named by slot `index` of a pointer block. -/
def tableSlot (m : MapState) (table index : ℕ) (alloc : Bool) : Except Errno ℕ × MapState :=
  match blockRead m.vol table with
  | none => (.error Errno.EIO, m)
  | some t =>
    if t.word index ≠ 0 then (.ok (t.word index), m)
    else if alloc = false then (.ok 0, m)
    else
      let (b, vol) := blockAlloc m.vol
      if b = 0 then (.error .ENOSPC, { m with vol := vol })
      else
        let n := { m.inode with blocks := inc32 m.inode.blocks }
        match blockWrite vol table (t.setWord index b) with
        | (false, vol) => (.error Errno.EIO, { vol := vol, inode := n, dirty := true })
        | (true, vol) => (.ok b, { vol := vol, inode := n, dirty := true })

/-- The single-indirect tier of `bmap`. -/
def bmapSingle (m : MapState) (index : ℕ) (alloc : Bool) : Except Errno ℕ × MapState :=
  match fillSlot m .indirect alloc with
  | (.error e, m) => (.error e, m)
  | (.ok (), m) =>
    if m.inode.indirect = 0 then (.ok 0, m) else tableSlot m m.inode.indirect index alloc

/-- The double-indirect tier of `bmap`. -/
def bmapDouble (m : MapState) (index : ℕ) (alloc : Bool) : Except Errno ℕ × MapState :=
  match fillSlot m .doubleIndirect alloc with
  | (.error e, m) => (.error e, m)
  | (.ok (), m) =>
    if m.inode.doubleIndirect = 0 then (.ok 0, m)
    else
      match tableSlot m m.inode.doubleIndirect (index / 256) alloc with
      | (.error e, m) => (.error e, m)
      | (.ok middle, m) =>
        if middle = 0 then (.ok 0, m) else tableSlot m middle (index % 256) alloc

/-- `bmap`: the block that holds block `index` of the file, 0 when there is none. -/
def bmap (m : MapState) (index : ℕ) (alloc : Bool) : Except Errno ℕ × MapState :=
  if h : index < 10 then
    match fillSlot m (.direct ⟨index, h⟩) alloc with
    | (.error e, m) => (.error e, m)
    | (.ok (), m) => (.ok (m.inode.direct ⟨index, h⟩), m)
  else if index - 10 < 256 then bmapSingle m (index - 10) alloc
  else if 256 * 256 ≤ index - 10 - 256 then (.error .EFBIG, m)
  else bmapDouble m (index - 10 - 256) alloc

/-! ## Truncation -/

/-- Free every block in a list of block numbers, skipping the zeroes. -/
def freeBlocks (v : Volume) (bs : List ℕ) : Volume :=
  bs.foldl (fun v b => if b ≠ 0 then blockFree v b else v) v

/-- The 256 block numbers of a pointer block. -/
def tableOf (t : Buf) : List ℕ := (List.range 256).map t.word

/-- `free_table`: free every block a pointer block names. -/
def freeTable (v : Volume) (table : ℕ) : Volume :=
  if table = 0 then v
  else
    match blockRead v table with
    | none => v
    | some t => freeBlocks v (tableOf t)

/-- The double-indirect part of `wfs_truncate`: one middle block at a time, the outer one last. -/
def freeDouble (v : Volume) (outer : ℕ) : Volume :=
  let v :=
    match blockRead v outer with
    | none => v
    | some t =>
      (tableOf t).foldl (fun v mid => if mid ≠ 0 then blockFree (freeTable v mid) mid else v) v
  blockFree v outer

/-- `wfs_truncate`: release every block of a file and set its size to zero. -/
def truncate (v : Volume) (ino : ℕ) : Except Errno Unit × Volume :=
  match readInode v ino with
  | .error e => (.error e, v)
  | .ok n =>
    let v := freeBlocks v (List.ofFn n.direct)
    let v := if n.indirect ≠ 0 then blockFree (freeTable v n.indirect) n.indirect else v
    let v := if n.doubleIndirect ≠ 0 then freeDouble v n.doubleIndirect else v
    writeInode v ino
      { Inode.zero with type := n.type, links := n.links, mtime := rtcEpoch v }

/-! ## Reading -/

/-- `READ_RUN_BLOCKS`, the most blocks gathered into one request. -/
def readRunBlocks : ℕ := 64

/-- The inner loop of `wfs_read`: how many blocks from `block` on, the `run` already counted
included, follow one another both in the file and on the disk and are wholly asked for. -/
def runLength (m : MapState) (index block left : ℕ) : ℕ → ℕ → ℕ
  | 0, run => run
  | fuel + 1, run =>
    if run < readRunBlocks ∧ (run + 1) * 1024 ≤ left then
      match (bmap m (index + run) false).1 with
      | .error _ => run
      | .ok next => if next = block + run then runLength m index block left fuel (run + 1) else run
    else run

/-- The loop of `wfs_read`: the bytes from `off + done` on, up to `off + len`. Every iteration
delivers at least one byte, so `len` iterations are enough. -/
def readLoop (m : MapState) (off len : ℕ) : ℕ → ℕ → Except Errno (List UInt8)
  | 0, _ => .ok []
  | fuel + 1, done =>
    if len ≤ done then .ok []
    else
      let pos := (off + done) % 4294967296
      let index := pos / 1024
      let inpos := pos % 1024
      let chunk := min (1024 - inpos) (len - done)
      match (bmap m index false).1 with
      | .error e => .error e
      | .ok block =>
        let run :=
          if inpos = 0 ∧ block ≠ 0 ∧ 1024 ≤ len - done
          then runLength m index block (len - done) readRunBlocks 1 else 1
        if 1 < run then
          match blocksRead m.vol block run with
          | none => .error Errno.EIO
          | some bytes => (bytes ++ ·) <$> readLoop m off len fuel (done + run * 1024)
        else if block = 0 then
          (Buf.zero.slice 0 chunk ++ ·) <$> readLoop m off len fuel (done + chunk)
        else
          match blockRead m.vol block with
          | none => .error Errno.EIO
          | some tmp => (tmp.slice inpos chunk ++ ·) <$> readLoop m off len fuel (done + chunk)

/-- `wfs_read`: the bytes it stores in the caller's buffer, whose number it returns. -/
def readFile (v : Volume) (ino off len : ℕ) : Except Errno (List UInt8) :=
  match readInode v ino with
  | .error e => .error e
  | .ok n =>
    if n.size ≤ off then .ok []
    else
      let len := if n.size < (off + len) % 4294967296 then n.size - off else len
      readLoop { vol := v, inode := n, dirty := false } off len len 0

/-! ## Writing -/

/-- How the loop of `wfs_write` ended. -/
inductive WriteEnd
  /-- All bytes are written. -/
  | finished
  /-- `bmap` failed and the loop stopped with what it had written. -/
  | stopped (e : Errno)
  /-- The device failed and the call returns at once. -/
  | failed
  deriving DecidableEq

/-- The loop of `wfs_write`, from `done` bytes on. Every iteration writes at least one byte, so
`len` iterations are enough. -/
def writeLoop (off : ℕ) (buf : Buf) (len : ℕ) : ℕ → MapState → ℕ → WriteEnd × MapState × ℕ
  | 0, m, done => (.finished, m, done)
  | fuel + 1, m, done =>
    if len ≤ done then (.finished, m, done)
    else
      let pos := (off + done) % 4294967296
      let inpos := pos % 1024
      let chunk := min (1024 - inpos) (len - done)
      match bmap m (pos / 1024) true with
      | (.error e, m) => (.stopped e, m, done)
      | (.ok block, m) =>
        -- a partial block is read first, so that the untouched bytes survive the write-back
        match if chunk ≠ 1024 then blockRead m.vol block else some m.vol.env.junk with
        | none => (.failed, m, done)
        | some tmp =>
          match blockWrite m.vol block (tmp.copy inpos (buf.drop done) chunk) with
          | (false, vol) => (.failed, { m with vol := vol }, done)
          | (true, vol) => writeLoop off buf len fuel { m with vol := vol } (done + chunk)

/-- `wfs_write` once its loop is over: record the new size and time, and report. -/
def writeFinish (m : MapState) (ino off len done : ℕ) (stop : Option Errno) :
    Except Errno ℕ × Volume :=
  let reached := (off + done) % 4294967296
  let grown := m.inode.size < reached
  let n := if grown then { m.inode with size := reached } else m.inode
  let n := if 0 < done then { n with mtime := rtcEpoch m.vol } else n
  let vol := if m.dirty ∨ grown ∨ 0 < done then (writeInode m.vol ino n).2 else m.vol
  if done = 0 ∧ 0 < len then (.error (stop.getD .ENOSPC), vol) else (.ok done, vol)

/-- `wfs_write`: how many bytes of `buf` it stored. -/
def writeFile (v : Volume) (ino off : ℕ) (buf : Buf) (len : ℕ) : Except Errno ℕ × Volume :=
  match readInode v ino with
  | .error e => (.error e, v)
  | .ok n =>
    if maxFileSize < (off + len) % 4294967296 then (.error .EFBIG, v)
    else
      match writeLoop off buf len len { vol := v, inode := n, dirty := false } 0 with
      | (.failed, m, _) => (.error Errno.EIO, m.vol)
      | (.finished, m, done) => writeFinish m ino off len done none
      | (.stopped e, m, done) => writeFinish m ino off len done (some e)

end Wos.Wfs
