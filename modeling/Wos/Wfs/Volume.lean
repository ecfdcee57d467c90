import Wos.Wfs.Format

/-!
# The mounted volume and its blocks

The state of the driver in `kernel/fs/wfs.c`, and the functions at its bottom: block I/O, block
allocation and the inode table. A `Volume` holds the two things the driver caches, the superblock
and the block bitmap, next to the device they came from.

The block cache of the source is write-through, so the device is modelled as what `block_read` and
`block_write` make of it together: an array of blocks. `log` records every block write in the order
it was issued, which is what a power cut cuts short. What the driver cannot know is kept in an
`Env`: which requests the device fails, what the clock says, what an uninitialised local holds.

## Main definitions

* `Env`, `Volume`: the driver's state and its surroundings;
* `blockRead`, `blockWrite`, `syncSuperblock`, `syncBitmapFor`: block I/O;
* `blockAlloc`, `blockFree`: the free list;
* `readInode`, `writeInode`, `inodeAlloc`, `inodeFree`, `utime`: the inode table.
-/

namespace Wos.Wfs

/-- What surrounds the driver. The clock and the device answer a request made after `n` block
writes, so successive requests may be answered differently. -/
structure Env where
  /-- `rtc_epoch ()`, after so many block writes. -/
  clock : ℕ → ℕ
  /-- The bytes an uninitialised local buffer happens to hold. -/
  junk : Buf
  /-- Whether the device fails a request for a block, after so many block writes. -/
  fails : ℕ → ℕ → Bool

/-- The state of a mounted volume: the static variables of the driver and the device. -/
structure Volume where
  sb : Superblock
  /-- `block_bitmap`, one bit for each block; set means allocated. -/
  bitmap : ℕ → Bool
  mounted : Bool
  /-- The blocks of the device. -/
  disk : ℕ → Buf
  /-- Every block write issued so far, oldest first. -/
  log : List (ℕ × Buf)
  env : Env

/-! ## Block I/O -/

/-- `block_read`. -/
def blockRead (v : Volume) (b : ℕ) : Option Buf :=
  if v.env.fails v.log.length b then none else some (v.disk b)

/-- `blocks_read`: a run of consecutive blocks in one transfer. -/
def blocksRead (v : Volume) (first count : ℕ) : Option (List UInt8) :=
  if (List.range count).any fun j => v.env.fails v.log.length (first + j) then none
  else some ((List.range count).flatMap fun j => (v.disk (first + j)).slice 0 1024)

/-- `block_write`. -/
def blockWrite (v : Volume) (b : ℕ) (buf : Buf) : Bool × Volume :=
  if v.env.fails v.log.length b then (false, v)
  else (true, { v with disk := Function.update v.disk b buf, log := v.log ++ [(b, buf)] })

/-- `sync_superblock`; no caller looks at its result. -/
def syncSuperblock (v : Volume) : Volume := (blockWrite v 0 v.sb.encode).2

/-- `sync_bitmap_for`; no caller looks at its result. -/
def syncBitmapFor (v : Volume) (b : ℕ) : Volume :=
  (blockWrite v (v.sb.bitmapStart + b / 8192) (bitmapImage v.bitmap (b / 8192))).2

/-- `x--` on a `uint32_t`. -/
def dec32 (x : ℕ) : ℕ := if x = 0 then 4294967295 else x - 1

/-- `x++` on a `uint32_t`. -/
def inc32 (x : ℕ) : ℕ := if x = 4294967295 then 0 else x + 1

lemma dec32_of_pos {x : ℕ} (h : 0 < x) : dec32 x = x - 1 := if_neg (by omega)

lemma inc32_of_lt {x : ℕ} (h : x + 1 < 4294967296) : inc32 x = x + 1 := if_neg (by omega)

lemma inc32_lt {x : ℕ} (h : x < 4294967296) : inc32 x < 4294967296 := by
  unfold inc32
  split <;> omega

/-! ## Block allocation -/

/-- Set or clear the bit of a block in the cached bitmap. -/
def Volume.setBit (v : Volume) (b : ℕ) (used : Bool) : Volume :=
  { v with bitmap := Function.update v.bitmap b used }

/-- Change the cached free block count. -/
def Volume.setFreeBlocks (v : Volume) (n : ℕ) : Volume :=
  { v with sb := { v.sb with freeBlocks := n } }

/-- Change the cached free inode count. -/
def Volume.setFreeInodes (v : Volume) (n : ℕ) : Volume :=
  { v with sb := { v.sb with freeInodes := n } }

/-- The block `block_alloc` settles on: the first clear bit of the data area. -/
def firstFree (v : Volume) : Option ℕ :=
  (List.range' v.sb.dataStart (v.sb.totalBlocks - v.sb.dataStart)).find? fun b => !v.bitmap b

/-- `block_alloc`: one zeroed data block, or 0 when the volume is full. -/
def blockAlloc (v : Volume) : ℕ × Volume :=
  match firstFree v with
  | none => (0, v)
  | some b =>
    let v := (v.setBit b true).setFreeBlocks (dec32 v.sb.freeBlocks)
    match blockWrite v b Buf.zero with
    | (false, v) => (0, v)
    | (true, v) => (b, syncSuperblock (syncBitmapFor v b))

/-- `block_free`. -/
def blockFree (v : Volume) (b : ℕ) : Volume :=
  if b < v.sb.dataStart ∨ v.sb.totalBlocks ≤ b then v
  else if v.bitmap b = false then v
  else
    let v := (v.setBit b false).setFreeBlocks (inc32 v.sb.freeBlocks)
    syncSuperblock (syncBitmapFor v b)

/-! ## Inodes -/

/-- The inode in slot `k` of a block of the inode table. -/
def inodeIn (blk : Buf) (k : ℕ) : Inode := Inode.decode (blk.drop (64 * k))

/-- A block of the inode table with the inode in slot `k` replaced. -/
def inodeBlockSet (blk : Buf) (k : ℕ) (n : Inode) : Buf :=
  fun j => if j / 64 = k then n.encode (j % 64) else blk j

/-- `wfs_read_inode`. -/
def readInode (v : Volume) (ino : ℕ) : Except Errno Inode :=
  if ino = 0 ∨ v.sb.totalInodes ≤ ino then .error .EINVAL
  else
    match blockRead v (v.sb.inodeStart + ino / 16) with
    | none => .error Errno.EIO
    | some blk => .ok (inodeIn blk (ino % 16))

/-- `write_inode`. -/
def writeInode (v : Volume) (ino : ℕ) (n : Inode) : Except Errno Unit × Volume :=
  if ino = 0 ∨ v.sb.totalInodes ≤ ino then (.error .EINVAL, v)
  else
    match blockRead v (v.sb.inodeStart + ino / 16) with
    | none => (.error Errno.EIO, v)
    | some blk =>
      match blockWrite v (v.sb.inodeStart + ino / 16) (inodeBlockSet blk (ino % 16) n) with
      | (false, v) => (.error Errno.EIO, v)
      | (true, v) => (.ok (), v)

/-- `rtc_epoch`. -/
def rtcEpoch (v : Volume) : ℕ := v.env.clock v.log.length % 4294967296

/-- The inode `inode_alloc` settles on: the first free one. -/
def firstFreeInode (v : Volume) : Option ℕ :=
  (List.range' 1 (v.sb.totalInodes - 1)).find? fun i =>
    match readInode v i with
    | .error _ => false
    | .ok n => n.type = typeFree

/-- `inode_alloc`: claim a free inode and initialise it. -/
def inodeAlloc (v : Volume) (type : ℕ) : Except Errno ℕ × Volume :=
  match firstFreeInode v with
  | none => (.error .ENOSPC, v)
  | some i =>
    match writeInode v i { Inode.zero with type := type, links := 1, mtime := rtcEpoch v } with
    | (.error e, v) => (.error e, v)
    | (.ok (), v) => (.ok i, syncSuperblock (v.setFreeInodes (dec32 v.sb.freeInodes)))

/-- `inode_free`. -/
def inodeFree (v : Volume) (ino : ℕ) : Volume :=
  let v := (writeInode v ino Inode.zero).2
  syncSuperblock (v.setFreeInodes (inc32 v.sb.freeInodes))

/-- `wfs_utime`. -/
def utime (v : Volume) (ino mtime : ℕ) : Except Errno Unit × Volume :=
  match readInode v ino with
  | .error e => (.error e, v)
  | .ok n => writeInode v ino { n with mtime := mtime % 4294967296 }

end Wos.Wfs
