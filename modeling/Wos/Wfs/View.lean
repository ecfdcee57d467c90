import Mathlib.Data.Fintype.Basic
import Wos.Wfs.File

/-!
# The typed view of a volume

A volume is an array of raw blocks. This module reads it as what the blocks stand for: a table of
inodes, the blocks of the data area, the allocation map and the two free counts. Everything above
works on this `View`; the byte layout, the read-modify-write of inode blocks and the write-back of
bitmap and superblock are dealt with here once.

The results are about a `Healthy` volume: its regions do not overlap and its device never reports
an error.

## Main definitions

* `Superblock.Geometry`, `Healthy`: a mounted volume the driver can work with;
* `View`, `Volume.view`: the typed view, and its updates `View.take`, `View.release`,
  `View.setInode` and `View.setData`.

## Main results

* `readInode_eq`, `writeInode_spec`, `blockAlloc_spec`, `blockFree_spec`, `blockWrite_data_spec`,
  `inodeAlloc_spec`, `inodeFree_spec`: the bottom functions of the driver as updates of the view.
-/

namespace Wos.Wfs

open Function Volume List

/-- The superblock describes regions that follow one another without overlap: itself, the bitmap,
the inode table, the data area. The block count leaves 32-bit sector numbers room. -/
structure Superblock.Geometry (sb : Superblock) : Prop where
  magic_eq : sb.magic = Wfs.magic
  blockSize_eq : sb.blockSize = 1024
  /-- The superblock has block 0. -/
  bitmap_pos : 0 < sb.bitmapStart
  /-- The bitmap ends before the inodes. -/
  bitmap_end : sb.bitmapStart + sb.bitmapBlocks ≤ sb.inodeStart
  /-- The inodes end before the data. -/
  inode_end : sb.inodeStart + sb.inodeBlocks ≤ sb.dataStart
  /-- The data begin on the volume. -/
  data_le : sb.dataStart ≤ sb.totalBlocks
  /-- The bitmap has a bit for every block. -/
  bitmap_cover : sb.totalBlocks ≤ 8192 * sb.bitmapBlocks
  /-- The table has room for every inode. -/
  inode_cover : sb.totalInodes ≤ 16 * sb.inodeBlocks
  /-- Numbers of sectors fit 32 bits. -/
  blocks_le : sb.totalBlocks ≤ 2147483648
  inodes_lt : sb.totalInodes < 4294967296
  root_eq : sb.rootInode = rootIno
  /-- The root is one of the inodes. -/
  root_lt : rootIno < sb.totalInodes

/-- What no operation of the driver changes: the superblock apart from its free counts, the
surroundings, and that the volume is mounted. -/
def Volume.frame (v : Volume) : Superblock × Env × Bool :=
  ({ v.sb with freeBlocks := 0, freeInodes := 0 }, v.env, v.mounted)

/-- A mounted volume with a sound layout, on a device that never reports an error. -/
structure Healthy (v : Volume) : Prop where
  /-- The layout is sound. -/
  geometry : v.sb.Geometry
  /-- The device reports no error. -/
  calm : ∀ n b, v.env.fails n b = false
  /-- It is mounted. -/
  mounted : v.mounted = true

variable {v : Volume}

variable {n : Inode} {v' : Volume}

/-- What equal frames have in common. -/
lemma Volume.frame_eq (h : v'.frame = v.frame) :
    v'.sb = { v.sb with freeBlocks := v'.sb.freeBlocks, freeInodes := v'.sb.freeInodes } ∧
      v'.env = v.env ∧ v'.mounted = v.mounted := by
  simp only [frame, Prod.mk.injEq, Superblock.mk.injEq] at h
  obtain ⟨⟨h1, h2, h3, -, h5, -, h7, h8, h9, h10, h11, h12⟩, henv, hm⟩ := h
  refine ⟨?_, henv, hm⟩
  ext <;> simp only [h1, h2, h3, h5, h7, h8, h9, h10, h11, h12]

lemma Healthy.of_frame (hv : Healthy v) (h : v'.frame = v.frame) : Healthy v' := by
  obtain ⟨hsb, henv, hm⟩ := frame_eq h
  obtain ⟨g1, g2, g3, g4, g5, g6, g7, g8, g9, g10, g11, g12⟩ := hv.geometry
  refine ⟨?_, ?_, ?_⟩
  · rw [hsb]
    exact ⟨g1, g2, g3, g4, g5, g6, g7, g8, g9, g10, g11, g12⟩
  · rw [henv]
    exact hv.calm
  · rw [hm]
    exact hv.mounted

/-! ## The view -/

/-- What the blocks of a volume stand for. -/
@[ext]
structure View where
  dataStart : ℕ
  totalBlocks : ℕ
  totalInodes : ℕ
  inodes : ℕ → Inode
  data : ℕ → Buf
  used : ℕ → Bool
  freeBlocks : ℕ
  freeInodes : ℕ

namespace View

/-- The block lies in the data area. -/
def InData (c : View) (b : ℕ) : Prop := c.dataStart ≤ b ∧ b < c.totalBlocks

/-- The number names an inode of the table; inode 0 means "no inode". -/
def Valid (c : View) (i : ℕ) : Prop := 0 < i ∧ i < c.totalInodes

instance (c : View) (b : ℕ) : Decidable (c.InData b) := by
  unfold InData
  infer_instance

instance (c : View) (i : ℕ) : Decidable (c.Valid i) := by
  unfold Valid
  infer_instance

/-- The view after a block is allocated: marked, zeroed and counted. -/
def take (c : View) (b : ℕ) : View :=
  { c with
    used := Function.update c.used b true
    data := Function.update c.data b Buf.zero
    freeBlocks := dec32 c.freeBlocks }

/-- The view after a block is released: its bit cleared and counted, its contents left. -/
def release (c : View) (b : ℕ) : View :=
  { c with used := Function.update c.used b false, freeBlocks := inc32 c.freeBlocks }

/-- The view with an inode replaced. -/
def setInode (c : View) (i : ℕ) (n : Inode) : View :=
  { c with inodes := Function.update c.inodes i n }

/-- The view with a data block replaced. -/
def setData (c : View) (b : ℕ) (buf : Buf) : View :=
  { c with data := Function.update c.data b buf }

/-- The view with the free inode count replaced. -/
def setFreeInodes (c : View) (n : ℕ) : View := { c with freeInodes := n }

end View

variable {b i : ℕ}

namespace Volume

/-- The inode with the given number, as it stands on disk. -/
def inodeAt (v : Volume) (i : ℕ) : Inode := inodeIn (v.disk (v.sb.inodeStart + i / 16)) (i % 16)

/-- The typed view of a volume. -/
def view (v : Volume) : View where
  dataStart := v.sb.dataStart
  totalBlocks := v.sb.totalBlocks
  totalInodes := v.sb.totalInodes
  inodes i := if 0 < i ∧ i < v.sb.totalInodes then v.inodeAt i else Inode.zero
  data b := if v.sb.dataStart ≤ b ∧ b < v.sb.totalBlocks then v.disk b else Buf.zero
  used := v.bitmap
  freeBlocks := v.sb.freeBlocks
  freeInodes := v.sb.freeInodes

/-- A successful block write. -/
def put (v : Volume) (b : ℕ) (buf : Buf) : Volume :=
  { v with disk := Function.update v.disk b buf, log := v.log ++ [(b, buf)] }

@[simp]
lemma put_sb (v : Volume) (b : ℕ) (buf : Buf) : (v.put b buf).sb = v.sb := rfl

@[simp]
lemma setBit_frame (v : Volume) (b : ℕ) (used : Bool) : (v.setBit b used).frame = v.frame := rfl

@[simp]
lemma setFreeBlocks_frame (v : Volume) (n : ℕ) : (v.setFreeBlocks n).frame = v.frame := rfl

@[simp]
lemma setFreeInodes_frame (v : Volume) (n : ℕ) : (v.setFreeInodes n).frame = v.frame := rfl

@[simp]
lemma view_setBit (v : Volume) (b : ℕ) (used : Bool) :
    (v.setBit b used).view = { v.view with used := update v.view.used b used } := rfl

@[simp]
lemma view_setFreeBlocks (v : Volume) (n : ℕ) :
    (v.setFreeBlocks n).view = { v.view with freeBlocks := n } := rfl

@[simp]
lemma view_setFreeInodes (v : Volume) (n : ℕ) :
    (v.setFreeInodes n).view = v.view.setFreeInodes n := rfl

lemma view_inData : v.view.InData b ↔ v.sb.dataStart ≤ b ∧ b < v.sb.totalBlocks := Iff.rfl

lemma view_valid : v.view.Valid i ↔ 0 < i ∧ i < v.sb.totalInodes := Iff.rfl

lemma view_data_of_inData (h : v.view.InData b) : v.view.data b = v.disk b := if_pos h

lemma view_inodes_of_valid (h : v.view.Valid i) : v.view.inodes i = v.inodeAt i := if_pos h

/-- Inodes read from disk fit their C types. -/
lemma view_inodes_fits (v : Volume) (i : ℕ) : (v.view.inodes i).Fits := by
  unfold view
  dsimp only
  split
  · exact Inode.fits_decode _
  · constructor <;> simp [Inode.zero]

/-- A write below the inode table shows nothing. -/
lemma view_put_meta (hv : Healthy v) (hb : b < v.sb.inodeStart)
    (buf : Buf) : (v.put b buf).view = v.view := by
  have hg := hv.geometry
  have hi := hg.inode_end
  ext1 <;> try rfl
  · funext i
    have hne : v.sb.inodeStart + i / 16 ≠ b := by omega
    simp [view, inodeAt, put, hne]
  · funext k
    refine ite_congr rfl (fun hk => ?_) fun _ => rfl
    have hne : k ≠ b := by omega
    simp [put, hne]

/-- A write to the data area replaces a data block. -/
lemma view_put_data (hv : Healthy v) (hb : v.view.InData b) (buf : Buf) :
    (v.put b buf).view = v.view.setData b buf := by
  have hg := hv.geometry
  have hi := hg.inode_end
  rw [view_inData] at hb
  ext1 <;> try rfl
  · funext i
    refine ite_congr rfl (fun hval => ?_) fun _ => rfl
    have hc := hg.inode_cover
    have hne : v.sb.inodeStart + i / 16 ≠ b := by
      omega
    simp [inodeAt, put, hne]
  · funext k
    by_cases hk : k = b
    · subst hk
      simp [view, put, View.setData, hb]
    · simp [view, put, View.setData, hk]

end Volume

/-! ## Inode blocks -/

lemma inodeIn_inodeBlockSet_self (h : n.Fits) (blk : Buf) (k : ℕ) :
    inodeIn (inodeBlockSet blk k n) k = n := by
  rw [inodeIn]
  conv_rhs => rw [← Inode.decode_encode h]
  apply Inode.decode_congr
  intro i hi
  apply Buf.word_congr
  intro j hj
  have hdiv : (64 * k + j) / 64 = k := by omega
  have hmod : (64 * k + j) % 64 = j := by omega
  simp [inodeBlockSet, hdiv, hmod]

lemma inodeIn_inodeBlockSet_of_ne (n : Inode) (blk : Buf) {j k : ℕ} (h : j ≠ k) :
    inodeIn (inodeBlockSet blk k n) j = inodeIn blk j := by
  rw [inodeIn, inodeIn]
  apply Inode.decode_congr
  intro i hi
  apply Buf.word_congr
  intro l hl
  have hne : ¬ (64 * j + l) / 64 = k := by omega
  simp [inodeBlockSet, hne]

/-- Rewriting the block that holds an inode replaces that inode and no other. -/
lemma Volume.view_put_inode (hv : Healthy v) (hi : v.view.Valid i) (hn : n.Fits) :
    (v.put (v.sb.inodeStart + i / 16)
      (inodeBlockSet (v.disk (v.sb.inodeStart + i / 16)) (i % 16) n)).view
        = v.view.setInode i n := by
  have hg := hv.geometry
  have hend := hg.inode_end
  have hcov := hg.inode_cover
  rw [view_valid] at hi
  ext1 <;> try rfl
  · funext j
    simp only [view, View.setInode, put_sb]
    by_cases hj : j = i
    · subst hj
      simp only [hi, and_self, if_true, update_self, inodeAt, put]
      exact inodeIn_inodeBlockSet_self hn _ _
    rw [update_of_ne hj]
    refine ite_congr rfl (fun hval => ?_) fun _ => rfl
    simp only [inodeAt, put]
    by_cases hblk : v.sb.inodeStart + j / 16 = v.sb.inodeStart + i / 16
    · rw [hblk, update_self]
      exact inodeIn_inodeBlockSet_of_ne _ _ (by omega)
    · rw [update_of_ne hblk]
  · funext k
    refine ite_congr rfl (fun hk => ?_) fun _ => rfl
    have hne : k ≠ v.sb.inodeStart + i / 16 := by omega
    simp [put, hne]

/-! ## The bottom functions of the driver -/

section Specs

variable {v : Volume} (hv : Healthy v)

include hv

lemma blockRead_eq (b : ℕ) : blockRead v b = some (v.disk b) := by
  simp [blockRead, hv.calm]

lemma blockRead_data (hb : v.view.InData b) : blockRead v b = some (v.view.data b) := by
  rw [blockRead_eq hv, view_data_of_inData hb]

lemma blockWrite_eq (b : ℕ) (buf : Buf) : blockWrite v b buf = (true, v.put b buf) := by
  simp [blockWrite, hv.calm, Volume.put]

lemma syncSuperblock_eq : syncSuperblock v = v.put 0 v.sb.encode := by
  rw [syncSuperblock, blockWrite_eq hv]

lemma syncBitmapFor_eq (b : ℕ) :
    syncBitmapFor v b = v.put (v.sb.bitmapStart + b / 8192) (bitmapImage v.bitmap (b / 8192)) := by
  rw [syncBitmapFor, blockWrite_eq hv]

lemma syncSuperblock_spec :
    (syncSuperblock v).view = v.view ∧ (syncSuperblock v).frame = v.frame := by
  have hg := hv.geometry
  have hpos := hg.bitmap_pos
  have hend := hg.bitmap_end
  rw [syncSuperblock_eq hv]
  exact ⟨view_put_meta hv (by omega) _, rfl⟩

lemma syncBitmapFor_spec (hb : v.view.InData b) :
    (syncBitmapFor v b).view = v.view ∧ (syncBitmapFor v b).frame = v.frame := by
  have hg := hv.geometry
  have hend := hg.bitmap_end
  have hcov := hg.bitmap_cover
  rw [view_inData] at hb
  rw [syncBitmapFor_eq hv]
  exact ⟨view_put_meta hv (by omega) _, rfl⟩

theorem blockWrite_data_spec (hb : v.view.InData b) (buf : Buf) :
    ∃ v', blockWrite v b buf = (true, v') ∧ v'.view = v.view.setData b buf ∧ v'.frame = v.frame :=
  ⟨v.put b buf, blockWrite_eq hv b buf, view_put_data hv hb buf, rfl⟩

/-- `block_alloc` finds no clear bit and changes nothing, or takes the block it returns. -/
theorem blockAlloc_spec :
    (blockAlloc v = (0, v) ∧ ∀ b, v.view.InData b → v.view.used b = true) ∨
      ∃ b v', blockAlloc v = (b, v') ∧ v.view.InData b ∧ v.view.used b = false ∧
        v'.view = v.view.take b ∧ v'.frame = v.frame := by
  unfold blockAlloc
  cases hfree : firstFree v with
  | none =>
    left
    refine ⟨rfl, ?_⟩
    intro b hb
    rw [firstFree, find?_eq_none] at hfree
    rw [view_inData] at hb
    have := hfree b (by rw [mem_range'_1]; omega)
    simpa [Volume.view] using this
  | some b =>
    right
    have hmem := mem_of_find?_eq_some hfree
    have hbit := find?_some hfree
    have hb : v.view.InData b := by
      rw [mem_range'_1] at hmem
      rw [view_inData]
      omega
    -- the bit and the count change in memory first, then the block, the bitmap and the
    -- superblock are written
    let v1 := (v.setBit b true).setFreeBlocks (dec32 v.sb.freeBlocks)
    have hframe1 : v1.frame = v.frame := by
      rw [setFreeBlocks_frame, setBit_frame]
    have hv1 : Healthy v1 := hv.of_frame hframe1
    have hview1 : v1.view = { v.view with
        used := update v.view.used b true, freeBlocks := dec32 v.view.freeBlocks } := by
      rw [view_setFreeBlocks, view_setBit]
      rfl
    have hb1 : v1.view.InData b := by
      rw [hview1]
      exact hb
    obtain ⟨v2, hw, hview2, hframe2⟩ := blockWrite_data_spec hv1 hb1 Buf.zero
    have hv2 : Healthy v2 := hv1.of_frame hframe2
    have hb2 : v2.view.InData b := by
      rw [hview2]
      exact hb1
    obtain ⟨hview3, hframe3⟩ := syncBitmapFor_spec hv2 hb2
    have hv3 := hv2.of_frame hframe3
    obtain ⟨hview4, hframe4⟩ := syncSuperblock_spec hv3
    refine ⟨b, syncSuperblock (syncBitmapFor v2 b), ?_, hb, ?_, ?_, ?_⟩
    · have hw' : blockWrite ((v.setBit b true).setFreeBlocks (dec32 v.sb.freeBlocks)) b Buf.zero =
          (true, v2) := hw
      simp only [hw']
    · simpa [Volume.view] using hbit
    · rw [hview4, hview3, hview2, hview1]
      rfl
    · rw [hframe4, hframe3, hframe2, hframe1]

/-- `block_free` releases an allocated data block and ignores anything else. -/
theorem blockFree_spec (b : ℕ) :
    (blockFree v b).view =
        (if v.view.InData b ∧ v.view.used b = true then v.view.release b else v.view) ∧
      (blockFree v b).frame = v.frame := by
  unfold blockFree
  by_cases hb : v.view.InData b
  · have hb' := view_inData.mp hb
    rw [if_neg (by omega)]
    cases hu : v.bitmap b with
    | false =>
      have hnot : ¬ (v.view.InData b ∧ v.view.used b = true) := by
        rintro ⟨-, h⟩
        exact Bool.false_ne_true (hu.symm.trans h)
      simp [if_neg hnot]
    | true =>
      have hyes : v.view.InData b ∧ v.view.used b = true := ⟨hb, hu⟩
      rw [if_pos hyes]
      let v1 := (v.setBit b false).setFreeBlocks (inc32 v.sb.freeBlocks)
      have hframe1 : v1.frame = v.frame := by
        rw [setFreeBlocks_frame, setBit_frame]
      have hv1 : Healthy v1 := hv.of_frame hframe1
      have hview1 : v1.view = v.view.release b := by
        rw [view_setFreeBlocks, view_setBit]
        rfl
      have hb1 : v1.view.InData b := by
        rw [hview1]
        exact hb
      obtain ⟨hview2, hframe2⟩ := syncBitmapFor_spec hv1 hb1
      obtain ⟨hview3, hframe3⟩ := syncSuperblock_spec (hv1.of_frame hframe2)
      refine ⟨?_, ?_⟩
      · change (syncSuperblock (syncBitmapFor v1 b)).view = _
        rw [hview3, hview2, hview1]
      · change (syncSuperblock (syncBitmapFor v1 b)).frame = _
        rw [hframe3, hframe2, hframe1]
  · rw [if_pos (by rw [view_inData] at hb; omega), if_neg (fun h => hb h.1)]
    exact ⟨rfl, rfl⟩

theorem readInode_eq (i : ℕ) :
    readInode v i = if v.view.Valid i then .ok (v.view.inodes i) else .error .EINVAL := by
  unfold readInode
  by_cases hi : v.view.Valid i
  · have hi' := view_valid.mp hi
    rw [if_neg (by omega), blockRead_eq hv, if_pos hi, view_inodes_of_valid hi]
    rfl
  · rw [if_pos (by rw [view_valid] at hi; omega), if_neg hi]

lemma readInode_ok (hi : v.view.Valid i) : readInode v i = .ok (v.view.inodes i) := by
  rw [readInode_eq hv, if_pos hi]

theorem writeInode_spec (hi : v.view.Valid i) (hn : n.Fits) :
    ∃ v', writeInode v i n = (.ok (), v') ∧ v'.view = v.view.setInode i n ∧ v'.frame = v.frame := by
  have hi' := view_valid.mp hi
  refine ⟨v.put (v.sb.inodeStart + i / 16)
      (inodeBlockSet (v.disk (v.sb.inodeStart + i / 16)) (i % 16) n), ?_,
    view_put_inode hv hi hn, rfl⟩
  rw [writeInode, if_neg (by omega), blockRead_eq hv]
  dsimp only
  rw [blockWrite_eq hv]

/-- The first inode with type `FREE`, if there is any. -/
lemma firstFreeInode_spec :
    (firstFreeInode v = none ∧ ∀ i, v.view.Valid i → (v.view.inodes i).type ≠ typeFree) ∨
      ∃ i, firstFreeInode v = some i ∧ v.view.Valid i ∧ (v.view.inodes i).type = typeFree := by
  cases hfree : firstFreeInode v with
  | none =>
    left
    refine ⟨rfl, ?_⟩
    intro i hi
    rw [firstFreeInode, find?_eq_none] at hfree
    have hi' := view_valid.mp hi
    have := hfree i (by rw [mem_range'_1]; omega)
    rw [readInode_ok hv hi] at this
    simpa using this
  | some i =>
    right
    have hmem := mem_of_find?_eq_some hfree
    have hfound := find?_some hfree
    have hi : v.view.Valid i := by
      rw [mem_range'_1] at hmem
      rw [view_valid]
      omega
    rw [readInode_ok hv hi] at hfound
    exact ⟨i, rfl, hi, by simpa using hfound⟩

/-- The inode `inode_alloc` writes. -/
def freshInode (v : Volume) (type : ℕ) : Inode :=
  { Inode.zero with type := type, links := 1, mtime := rtcEpoch v }

omit hv in
lemma freshInode_fits (v : Volume) {type : ℕ} (ht : type < 65536) : (freshInode v type).Fits := by
  constructor <;> simp [freshInode, Inode.zero, ht, rtcEpoch]
  exact Nat.mod_lt _ (by norm_num)

/-- `inode_alloc` finds no free inode and changes nothing, or claims the one it returns. -/
theorem inodeAlloc_spec {type : ℕ} (ht : type < 65536) :
    (inodeAlloc v type = (.error .ENOSPC, v) ∧
        ∀ i, v.view.Valid i → (v.view.inodes i).type ≠ typeFree) ∨
      ∃ i v', inodeAlloc v type = (.ok i, v') ∧ v.view.Valid i ∧
        (v.view.inodes i).type = typeFree ∧
        v'.view = (v.view.setInode i (freshInode v type)).setFreeInodes (dec32 v.view.freeInodes) ∧
        v'.frame = v.frame := by
  rcases firstFreeInode_spec hv with ⟨hnone, hall⟩ | ⟨i, hsome, hi, htype⟩
  · left
    refine ⟨?_, hall⟩
    rw [inodeAlloc, hnone]
  right
  obtain ⟨v1, hw, hview1, hframe1⟩ := writeInode_spec hv hi (freshInode_fits v ht)
  have hv1 := hv.of_frame hframe1
  let v2 := v1.setFreeInodes (dec32 v1.sb.freeInodes)
  have hv2 : Healthy v2 := hv1.of_frame (v1.setFreeInodes_frame _)
  obtain ⟨hview3, hframe3⟩ := syncSuperblock_spec hv2
  refine ⟨i, syncSuperblock v2, ?_, hi, htype, ?_, ?_⟩
  · rw [inodeAlloc, hsome]
    dsimp only
    rw [show ({ Inode.zero with type := type, links := 1, mtime := rtcEpoch v } : Inode)
      = freshInode v type from rfl, hw]
  · rw [hview3, view_setFreeInodes, show v1.sb.freeInodes = v1.view.freeInodes from rfl, hview1]
    rfl
  · rw [hframe3]
    exact hframe1

/-- `inode_free` clears the inode and counts it. -/
theorem inodeFree_spec (hi : v.view.Valid i) :
    (inodeFree v i).view = (v.view.setInode i Inode.zero).setFreeInodes (inc32 v.view.freeInodes) ∧
      (inodeFree v i).frame = v.frame := by
  have hz : Inode.zero.Fits := by constructor <;> simp [Inode.zero]
  obtain ⟨v1, hw, hview1, hframe1⟩ := writeInode_spec hv hi hz
  have hv1 := hv.of_frame hframe1
  have hv2 : Healthy (v1.setFreeInodes (inc32 v1.sb.freeInodes)) :=
    hv1.of_frame (v1.setFreeInodes_frame _)
  obtain ⟨hview3, hframe3⟩ := syncSuperblock_spec hv2
  unfold inodeFree
  rw [hw]
  refine ⟨?_, ?_⟩
  · rw [hview3, view_setFreeInodes, show v1.sb.freeInodes = v1.view.freeInodes from rfl, hview1]
    rfl
  · rw [hframe3]
    exact hframe1

end Specs

end Wos.Wfs
