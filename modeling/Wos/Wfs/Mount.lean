import Wos.Wfs.Namespace

/-!
# Mounting a volume

What the driver makes of a disk when the machine starts: `superblock_ok` and `adopt_volume` of
`kernel/fs/wfs.c`. Which device and which partition the volume is found on is settled before that;
`disk` holds the blocks from the start of the volume.

The volume that is mounted is known only up to what nobody looks at, such as the contents of free
blocks: `SameFiles` relates two views that agree on everything else, and what is consistent or
sound in one is so in the other.

## Main definitions

* `superblockOk`, `adoptVolume`, `mount`: the driver's start;
* `Mirrors`: the disk holds the superblock and the bitmap that the driver has cached;
* `SameFiles`: two views with the same files.

## Main results

* `mount_eq`: a disk that mirrors a sound layout is mounted;
* `SameFiles.consistent`, `SameFiles.shows_still`.
-/

namespace Wos.Wfs

/-- `superblock_ok`: the first block, if it is the superblock of a volume of this version. -/
def superblockOk (env : Env) (disk : ℕ → Buf) : Option Superblock :=
  if env.fails 0 0 then none
  else if (Superblock.decode (disk 0)).magic = magic then some (Superblock.decode (disk 0))
  else none

/-- The driver's state once the bitmap has been read into memory. -/
def adopted (env : Env) (disk : ℕ → Buf) (sb : Superblock) : Volume where
  sb := sb
  bitmap b :=
    if b / 8192 < sb.bitmapBlocks then bitmapBit (disk (sb.bitmapStart + b / 8192)) b else false
  mounted := true
  disk := disk
  log := []
  env := env

lemma adopted_setEnv (env : Env) (disk : ℕ → Buf) (sb : Superblock) :
    { adopted env disk sb with env := env } = adopted env disk sb := rfl

/-- `adopt_volume`; `kmalloc` may refuse the memory for the bitmap. -/
def adoptVolume (env : Env) (kmalloc : ℕ → Bool) (disk : ℕ → Buf) (sb : Superblock) :
    Option Volume :=
  if sb.blockSize ≠ 1024 then none
  else if kmalloc (sb.bitmapBlocks * 1024 % 4294967296) = false then none
  else if (List.range sb.bitmapBlocks).any fun k => env.fails 0 (sb.bitmapStart + k) then none
  else some (adopted env disk sb)

/-- `wfs_mount`, on the device and partition that hold the volume. -/
def mount (env : Env) (kmalloc : ℕ → Bool) (disk : ℕ → Buf) : Option Volume :=
  (superblockOk env disk).bind (adoptVolume env kmalloc disk)

/-- The disk holds this superblock and this bitmap. -/
structure Mirrors (sb : Superblock) (bitmap : ℕ → Bool) (disk : ℕ → Buf) : Prop where
  superblock : Superblock.decode (disk 0) = sb
  bitmap : ∀ b < sb.totalBlocks, bitmapBit (disk (sb.bitmapStart + b / 8192)) b = bitmap b

/-- The superblock of a sound layout fits its C type when its free counts do. -/
lemma Superblock.Geometry.fits {sb : Superblock} (h : sb.Geometry)
    (hblocks : sb.freeBlocks < 4294967296) (hinodes : sb.freeInodes < 4294967296) : sb.Fits := by
  obtain ⟨hmagic, hsize, -, hbitmap, hinode, hdata, -, -, htotal, hinodes', hroot, -⟩ := h
  have hmagic' : Wfs.magic < 4294967296 := by decide
  have hroot' : rootIno = 1 := rfl
  refine ⟨fun k => ?_⟩
  unfold Superblock.words
  split <;> omega

section Mount

variable {sb : Superblock} {bitmap : ℕ → Bool} {disk : ℕ → Buf} (hg : sb.Geometry)
  (hm : Mirrors sb bitmap disk)

include hg hm

/-- The driver takes on a disk that mirrors a sound layout, if the bitmap fits the heap. -/
theorem mount_eq {env : Env} (kmalloc : ℕ → Bool) (hcalm : ∀ n b, env.fails n b = false) :
    mount env kmalloc disk =
      if kmalloc (sb.bitmapBlocks * 1024 % 4294967296) = false then none
      else some (adopted env disk sb) := by
  have hok : superblockOk env disk = some sb := by
    rw [superblockOk, hcalm, if_neg Bool.false_ne_true, hm.superblock, if_pos hg.magic_eq]
  have hread : (List.range sb.bitmapBlocks).any (fun k => env.fails 0 (sb.bitmapStart + k)) =
      false := by
    simp [hcalm]
  rw [mount, hok, Option.bind_some, adoptVolume, if_neg (not_not.mpr hg.blockSize_eq), hread,
    if_neg Bool.false_ne_true]

lemma adopted_bitmap (env : Env) {b : ℕ} (hb : b < sb.totalBlocks) :
    (adopted env disk sb).bitmap b = bitmap b := by
  have hcover := hg.bitmap_cover
  exact (if_pos (by omega)).trans (hm.bitmap b hb)

end Mount

/-! ## Views with the same files -/

/-- The views differ at most in what belongs to no file: free blocks, and numbers that name no
block or inode. -/
structure SameFiles (c c' : View) : Prop where
  dataStart_eq : c'.dataStart = c.dataStart
  totalBlocks_eq : c'.totalBlocks = c.totalBlocks
  totalInodes_eq : c'.totalInodes = c.totalInodes
  freeBlocks_eq : c'.freeBlocks = c.freeBlocks
  freeInodes_eq : c'.freeInodes = c.freeInodes
  /-- Inodes agree. -/
  inodes_eq : ∀ i, c.Valid i → c'.inodes i = c.inodes i
  /-- So do the marks of the data area. -/
  used_eq : ∀ b, c.InData b → c'.used b = c.used b
  /-- So do blocks in use. -/
  data_eq : ∀ b, c.InData b → c.used b = true → c'.data b = c.data b

namespace SameFiles

variable {c c' : View} (h : SameFiles c c') (hc : c.Consistent)

include h

lemma valid_iff (i : ℕ) : c'.Valid i ↔ c.Valid i := by
  rw [View.Valid, View.Valid, h.totalInodes_eq]

lemma live_iff (i : ℕ) : c'.Live i ↔ c.Live i := by
  rw [View.Live, View.Live, h.valid_iff]
  exact and_congr_right fun hi => by rw [h.inodes_eq i hi]

lemma dir_iff (i : ℕ) : c'.IsDir i ↔ c.IsDir i := by
  rw [View.IsDir, View.IsDir, h.valid_iff]
  exact and_congr_right fun hi => by rw [h.inodes_eq i hi]

include hc

/-- The pointer blocks on the way to a slot are in use, so they are the same. -/
lemma slot_eq {i : ℕ} (hi : c.Live i) (p : Slot) : c'.slot i p = c.slot i p := by
  induction p using Slot.parent_induction with
  | root p hp =>
    have hinode := h.inodes_eq i hi.1
    cases p with
    | direct k => exact congrArg (fun n => n.direct k) hinode
    | indirect => exact congrArg Inode.indirect hinode
    | double => exact congrArg Inode.doubleIndirect hinode
    | single | middle | leaf => cases hp
  | entry p q hpq ih =>
    rw [View.slot_parent c' i hpq, ih, View.slot_parent c i hpq, View.entry, View.entry]
    by_cases hq : c.slot i q = 0
    · rw [if_pos hq, if_pos hq]
    · rw [if_neg hq, if_neg hq, h.data_eq _ (hc.inData i q hi hq) (hc.used i q hi hq)]

lemma consistent : c'.Consistent := by
  refine hc.congr h.dataStart_eq h.totalBlocks_eq h.totalInodes_eq h.freeBlocks_eq h.freeInodes_eq
    h.used_eq (fun i hi => ?_) fun i p hi => h.slot_eq hc hi p
  rw [h.inodes_eq i hi]
  exact ⟨rfl, rfl⟩

lemma agree {i : ℕ} (hi : c.Live i) : Agree c c' i := by
  refine ⟨by rw [h.inodes_eq i hi.1], by rw [h.inodes_eq i hi.1], fun k => ?_, fun p hp => ?_⟩
  · unfold View.byteAt
    cases hp : Slot.ofIndex (k / 1024) with
    | none => rfl
    | some p =>
      dsimp only
      rw [h.slot_eq hc hi]
      by_cases hp0 : c.slot i p = 0
      · rw [if_pos hp0, if_pos hp0]
      · rw [if_neg hp0, if_neg hp0, h.data_eq _ (hc.inData i p hi hp0) (hc.used i p hi hp0)]
  · rwa [h.slot_eq hc hi]

/-- The namespace is the same. -/
lemma shows_still (w : ℕ) : Shows c c' w c.child := by
  have hagree : ∀ e, c.names.dir e → Agree c c' e := fun e he =>
    h.agree hc (View.names_dir_live he)
  exact ⟨h.consistent hc, h.live_iff, h.dir_iff, fun j hj => (h.agree hc hj).type_eq,
    fun e he => (hagree e he).dirOk, fun e he => (hagree e he).dense,
    fun e n he => (hagree e he).child_eq n, fun j hj _ _ => h.agree hc hj⟩

end SameFiles

end Wos.Wfs
