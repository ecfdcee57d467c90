import Wos.Abi
import Wos.Base.Bytes

/-!
# The on-disk format of WFS

The structures of `include/wfs.h` and their layout in 1024-byte blocks. All three structures are
arrays of little-endian 32-bit words, so each is encoded through the words it consists of: the
inode's two leading 16-bit fields share its first word, and the 28 name bytes of a directory entry
follow the word that holds the inode number.

The sizes that `wfs.h` fixes are written as numerals: blocks of 1024 bytes, sixteen 64-byte inodes
in a block, thirty-two 32-byte directory entries in a block, 256 pointers in a pointer block, ten
direct pointers in an inode, 8192 bits in a block of the bitmap.

## Main definitions

* `Superblock`, `Inode`, `Dirent`: the on-disk structures;
* `Superblock.encode`, `Inode.encode`, `Dirent.encode` and the matching `decode`: their bytes;
* `bitmapImage`, `bitmapBit`: one block of the block bitmap.
-/

namespace Wos.Wfs

open List Nat

/-- `WFS_MAGIC`, "WFS3". -/
def magic : ℕ := 0x33534657

/-- The number of data blocks a file can have: direct, single-indirect and double-indirect. -/
def maxFileBlocks : ℕ := 10 + 256 + 256 * 256

/-- `WFS_MAX_FILE_SIZE`. -/
def maxFileSize : ℕ := maxFileBlocks * 1024

lemma maxFileSize_eq : maxFileSize = 65802 * 1024 := rfl

/-- `WFS_ROOT_INO`. -/
def rootIno : ℕ := 1

/-- `WFS_TYPE_FREE`. -/
def typeFree : ℕ := 0

/-- `WFS_TYPE_FILE`. -/
def typeFile : ℕ := 1

/-- `WFS_TYPE_DIR`. -/
def typeDir : ℕ := 2

/-- `struct wfs_superblock`. -/
@[ext]
structure Superblock where
  magic : ℕ
  blockSize : ℕ
  totalBlocks : ℕ
  freeBlocks : ℕ
  totalInodes : ℕ
  freeInodes : ℕ
  bitmapStart : ℕ
  bitmapBlocks : ℕ
  inodeStart : ℕ
  inodeBlocks : ℕ
  dataStart : ℕ
  rootInode : ℕ
  deriving DecidableEq

/-- The twelve words of a superblock, in the order of the C structure. -/
def Superblock.words (sb : Superblock) : ℕ → ℕ
  | 0 => sb.magic
  | 1 => sb.blockSize
  | 2 => sb.totalBlocks
  | 3 => sb.freeBlocks
  | 4 => sb.totalInodes
  | 5 => sb.freeInodes
  | 6 => sb.bitmapStart
  | 7 => sb.bitmapBlocks
  | 8 => sb.inodeStart
  | 9 => sb.inodeBlocks
  | 10 => sb.dataStart
  | 11 => sb.rootInode
  | _ => 0

/-- The block `sync_superblock` writes: the structure, padded with zeroes. -/
def Superblock.encode (sb : Superblock) : Buf := Buf.ofWords sb.words

/-- The superblock in the first bytes of a block. -/
def Superblock.decode (b : Buf) : Superblock where
  magic := b.word 0
  blockSize := b.word 1
  totalBlocks := b.word 2
  freeBlocks := b.word 3
  totalInodes := b.word 4
  freeInodes := b.word 5
  bitmapStart := b.word 6
  bitmapBlocks := b.word 7
  inodeStart := b.word 8
  inodeBlocks := b.word 9
  dataStart := b.word 10
  rootInode := b.word 11

/-- Every field fits in 32 bits, as the C structure's fields do. -/
structure Superblock.Fits (sb : Superblock) : Prop where
  words_lt : ∀ k, sb.words k < 4294967296

/-- A superblock survives being written and read back. -/
lemma Superblock.decode_encode {sb : Superblock} (h : sb.Fits) : decode sb.encode = sb := by
  have hw : ∀ k, sb.encode.word k = sb.words k := by
    intro k
    rw [encode, Buf.word_ofWords, mod_eq_of_lt (h.words_lt k)]
  ext <;> simp only [decode, hw] <;> rfl

/-- `struct wfs_inode`. -/
@[ext]
structure Inode where
  type : ℕ
  links : ℕ
  size : ℕ
  blocks : ℕ
  mtime : ℕ
  direct : Fin 10 → ℕ
  indirect : ℕ
  doubleIndirect : ℕ

/-- The inode `memset` to zero, which is a free one. -/
def Inode.zero : Inode := ⟨0, 0, 0, 0, 0, fun _ => 0, 0, 0⟩

/-- The sixteen words of an inode, in the order of the C structure. -/
def Inode.words (n : Inode) (k : ℕ) : ℕ :=
  if k = 0 then n.type + 65536 * n.links
  else if k = 1 then n.size
  else if k = 2 then n.blocks
  else if k = 3 then n.mtime
  else if h : k - 4 < 10 then n.direct ⟨k - 4, h⟩
  else if k = 14 then n.indirect
  else n.doubleIndirect

/-- The 64 bytes of an inode. -/
def Inode.encode (n : Inode) : Buf := Buf.ofWords n.words

/-- The inode in the first 64 bytes of a buffer. -/
def Inode.decode (b : Buf) : Inode where
  type := b.word 0 % 65536
  links := b.word 0 / 65536
  size := b.word 1
  blocks := b.word 2
  mtime := b.word 3
  direct := fun i => b.word (4 + i)
  indirect := b.word 14
  doubleIndirect := b.word 15

/-- Decoding looks at sixteen words only. -/
lemma Inode.decode_congr {a b : Buf} (h : ∀ i < 16, a.word i = b.word i) :
    decode a = decode b := by
  ext i
  · simp only [decode, h 0 (by omega)]
  · simp only [decode, h 0 (by omega)]
  · exact h 1 (by omega)
  · exact h 2 (by omega)
  · exact h 3 (by omega)
  · exact h (4 + i) (by omega)
  · exact h 14 (by omega)
  · exact h 15 (by omega)

/-- Every field fits in its C type. -/
structure Inode.Fits (n : Inode) : Prop where
  type_lt : n.type < 65536
  links_lt : n.links < 65536
  size_lt : n.size < 4294967296
  blocks_lt : n.blocks < 4294967296
  mtime_lt : n.mtime < 4294967296
  direct_lt : ∀ i, n.direct i < 4294967296
  indirect_lt : n.indirect < 4294967296
  doubleIndirect_lt : n.doubleIndirect < 4294967296

/-- What is read from disk fits. -/
lemma Inode.fits_decode (b : Buf) : (decode b).Fits where
  type_lt := mod_lt _ (by norm_num)
  links_lt := by
    have := b.word_lt 0
    simp only [decode]
    omega
  size_lt := b.word_lt 1
  blocks_lt := b.word_lt 2
  mtime_lt := b.word_lt 3
  direct_lt := fun i => b.word_lt _
  indirect_lt := b.word_lt 14
  doubleIndirect_lt := b.word_lt 15

/-- An inode survives being written and read back. -/
lemma Inode.decode_encode {n : Inode} (h : n.Fits) : decode n.encode = n := by
  have hw : ∀ k, n.encode.word k = n.words k % 4294967296 := fun k => Buf.word_ofWords _ k
  have h0 : n.encode.word 0 = n.type + 65536 * n.links := by
    have := h.type_lt
    have := h.links_lt
    rw [hw, mod_eq_of_lt] <;> simp only [words, if_true]
    omega
  ext i
  · simp only [decode, h0]
    have := h.type_lt
    omega
  · simp only [decode, h0]
    have := h.type_lt
    omega
  · simp only [decode, hw]
    exact mod_eq_of_lt h.size_lt
  · simp only [decode, hw]
    exact mod_eq_of_lt h.blocks_lt
  · simp only [decode, hw]
    exact mod_eq_of_lt h.mtime_lt
  · simp only [decode, hw]
    rw [show n.words (4 + (i : ℕ)) = n.direct i from ?_]
    · exact mod_eq_of_lt (h.direct_lt i)
    · simp [words, show ¬ 4 + (i : ℕ) = 1 by omega, show ¬ 4 + (i : ℕ) = 2 by omega,
        show ¬ 4 + (i : ℕ) = 3 by omega, show 4 + (i : ℕ) - 4 = i by omega]
  · simp only [decode, hw]
    exact mod_eq_of_lt h.indirect_lt
  · simp only [decode, hw]
    exact mod_eq_of_lt h.doubleIndirect_lt

/-- `struct wfs_dirent`: the name is the bytes before the first NUL. -/
@[ext]
structure Dirent where
  ino : ℕ
  name : List UInt8
  deriving DecidableEq

/-- The 32 bytes of a directory entry: `memset` to zero, then the fields. -/
def Dirent.encode (e : Dirent) : Buf := fun k =>
  if k < 4 then leByte e.ino k else e.name.getD (k - 4) 0

/-- The directory entry in the first 32 bytes of a buffer. -/
def Dirent.decode (b : Buf) : Dirent where
  ino := b.word 0
  name := (b.slice 4 28).takeWhile (· ≠ 0)

/-- The name fits its 28-byte field and holds no NUL; the inode number fits 32 bits. -/
structure Dirent.Fits (e : Dirent) : Prop where
  ino_lt : e.ino < 4294967296
  name_length : e.name.length ≤ 27
  name_ne_zero : ∀ c ∈ e.name, c ≠ 0

/-- A directory entry survives being written and read back. -/
lemma Dirent.decode_encode {e : Dirent} (h : e.Fits) : decode e.encode = e := by
  ext1
  · have hw : e.encode.word 0 = (Buf.ofWords fun _ => e.ino).word 0 := by
      apply Buf.word_congr
      intro k hk
      have hk4 : k < 4 := by omega
      simp [encode, Buf.ofWords, hk4, mod_eq_of_lt hk4]
    simp only [decode]
    rw [hw, Buf.word_ofWords, mod_eq_of_lt h.ino_lt]
  · have hlen := h.name_length
    have hs : e.encode.slice 4 28 = e.name ++ replicate (28 - e.name.length) 0 := by
      apply ext_getElem
      · simp
        omega
      intro k h1 h2
      simp only [Buf.length_slice] at h1
      simp only [Buf.slice, getElem_map, getElem_range, encode,
        show ¬ 4 + k < 4 by omega, if_false, show 4 + k - 4 = k by omega]
      by_cases hk : k < e.name.length
      · simp [getD_eq_getElem?_getD, hk]
      · rw [getElem_append_right (by omega)]
        simp [getD_eq_getElem?_getD, hk]
    simp only [decode, hs]
    rw [takeWhile_append_of_pos (by simpa using h.name_ne_zero)]
    obtain ⟨n, hn⟩ : ∃ n, 28 - e.name.length = n + 1 := ⟨27 - e.name.length, by omega⟩
    simp [hn, replicate_succ]

/-- The block of the bitmap with the given index: bit `b % 8` of byte `b / 8` of the whole
bitmap says whether block `b` is allocated. -/
def bitmapImage (bitmap : ℕ → Bool) (index : ℕ) : Buf := fun k =>
  UInt8.ofNat (Nat.ofBits fun j : Fin 8 => bitmap (8192 * index + 8 * k + j))

/-- The bit of block `b` in the bitmap block that holds it. -/
def bitmapBit (image : Buf) (b : ℕ) : Bool := (image (b % 8192 / 8)).toNat.testBit (b % 8)

/-- A bit of the bitmap survives being written and read back. -/
lemma bitmapBit_bitmapImage (bitmap : ℕ → Bool) (b : ℕ) :
    bitmapBit (bitmapImage bitmap (b / 8192)) b = bitmap b := by
  have hlt : ofBits (fun j : Fin 8 =>
      bitmap (8192 * (b / 8192) + 8 * (b % 8192 / 8) + j)) < 256 := ofBits_lt_two_pow _
  have hb : b % 8 < 8 := mod_lt _ (by norm_num)
  simp only [bitmapBit, bitmapImage, UInt8.toNat_ofNat']
  rw [mod_eq_of_lt hlt, testBit_ofBits_lt _ _ hb]
  congr 1
  simp only
  omega

end Wos.Wfs
