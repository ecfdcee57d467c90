import Wos.Mkwfs.Image
import Wos.Wfs.Mount
import Wos.Wfs.NameOps

/-!
# What `mkwfs` builds

An image that `mkwfs` finishes is consistent, its namespace is a tree that holds every inode in
use, and the disk it is written to can be mounted. The block map of the tool fills the same slots
as that of the driver, so a step of it is a step of the slot calculus (`Grows`), and a new file or
directory is the same change of the namespace as one that `wfs_create` makes (`Created`).

## Main definitions

* `Storable`: what is in the image can be written out;
* `Building`: the invariant of the tool.

## Main results

* `bmap_spec`, `fileWrite_spec`, `dirAdd_spec`, `makeDir_spec`, `addHostFile_spec`;
* `addTree_spec`, `mkwfs_building`: the invariant over a staging directory of any shape;
* `IsFresh.intact`: what is mounted from it is consistent and a tree.
-/

namespace Wos.Mkwfs

open Wfs List Option View Image Nat

/-- What is in the image can be written out: every inode fits its C type, and every block in use is
in memory. -/
structure Storable (img : Image) : Prop where
  /-- The time fits 32 bits. -/
  time_lt : img.buildTime < 4294967296
  /-- Every field of an inode fits its C type. -/
  fits : ∀ i, (img.view.inodes i).Fits
  /-- Blocks in use are among those that were built. -/
  inMemory : ∀ b, img.view.InData b → img.view.used b = true → b < img.built

/-- From `img` to `img'` only the contents of the volume change, and they can be written out. -/
structure Keeps (img img' : Image) : Prop where
  built_eq : img'.built = img.built
  buildTime_eq : img'.buildTime = img.buildTime
  dataStart_eq : img'.view.dataStart = img.view.dataStart
  totalBlocks_eq : img'.view.totalBlocks = img.view.totalBlocks
  totalInodes_eq : img'.view.totalInodes = img.view.totalInodes
  storable : Storable img'

variable {b : ℕ}

namespace Keeps

variable {img img' img'' : Image}

lemma refl (h : Storable img) : Keeps img img := ⟨rfl, rfl, rfl, rfl, rfl, h⟩

lemma trans (h : Keeps img img') (h' : Keeps img' img'') : Keeps img img'' :=
  ⟨h'.built_eq.trans h.built_eq, h'.buildTime_eq.trans h.buildTime_eq,
    h'.dataStart_eq.trans h.dataStart_eq, h'.totalBlocks_eq.trans h.totalBlocks_eq,
    h'.totalInodes_eq.trans h.totalInodes_eq, h'.storable⟩

/-- An inode is replaced. -/
lemma setInode (h : Storable img) (i : ℕ) {n : Inode} (hn : n.Fits) :
    Keeps img (img.set (img.view.setInode i n)) := by
  refine ⟨rfl, rfl, rfl, rfl, rfl, h.time_lt, fun j => ?_, h.inMemory⟩
  by_cases hj : j = i
  · rw [hj, set_view, setInode_inodes_self]
    exact hn
  · rw [set_view, setInode_inodes_of_ne _ hj]
    exact h.fits j

/-- A block is taken that is in memory. -/
lemma take (h : Storable img) (hb : b < img.built) : Keeps img (img.set (img.view.take b)) := by
  refine ⟨rfl, rfl, rfl, rfl, rfl, h.time_lt, h.fits, fun k hk hu => ?_⟩
  by_cases hkb : k = b
  · rw [hkb]
    exact hb
  · refine h.inMemory k hk ?_
    rwa [← show (img.view.take b).used k = img.view.used k from Function.update_of_ne hkb _ _]

/-- A data block is replaced. -/
lemma setData (h : Storable img) (b : ℕ) (buf : Buf) :
    Keeps img (img.set (img.view.setData b buf)) :=
  ⟨rfl, rfl, rfl, rfl, rfl, h.time_lt, h.fits, h.inMemory⟩

lemma setFreeInodes (h : Storable img) (n : ℕ) : Keeps img (img.set (img.view.setFreeInodes n)) :=
  ⟨rfl, rfl, rfl, rfl, rfl, h.time_lt, h.fits, h.inMemory⟩

end Keeps

/-! ## The block map -/

variable {img img' : Image}

/-- `block_alloc` takes a free block of the data area that is in memory. -/
lemma blockAlloc_spec (h : blockAlloc img = some (b, img')) :
    img.view.InData b ∧ img.view.used b = false ∧ b < img.built ∧
      img' = img.set (img.view.take b) := by
  rw [blockAlloc] at h
  cases hfind : (range' img.view.dataStart
      (img.view.totalBlocks - img.view.dataStart)).find? fun b => !img.view.used b with
  | none =>
    rw [hfind] at h
    cases h
  | some k =>
    rw [hfind] at h
    dsimp only at h
    split at h
    next hmem =>
      cases h
      have hrange := mem_range'_1.mp (mem_of_find?_eq_some hfind)
      have hbit := find?_some hfind
      exact ⟨⟨hrange.1, by omega⟩, by simpa using hbit, hmem.2, rfl⟩
    next => cases h

/-- What a step of the block map of inode `ino` does: it fills slots out of a list. -/
structure Maps (ino : ℕ) (on : List Slot) (img img' : Image) : Prop where
  keeps : Keeps img img'
  grows : Grows ino on img.view img'.view

lemma Maps.trans {ino : ℕ} {on : List Slot} {img'' : Image} (h : Maps ino on img img')
    (h' : Maps ino on img' img'') : Maps ino on img img'' :=
  ⟨h.keeps.trans h'.keeps, h.grows.trans h'.grows⟩

section BlockMap

variable {img : Image} (hst : Storable img) (hc : img.view.Consistent) {ino : ℕ}
  (hi : img.view.Live ino) {on : List Slot}

include hst hc hi

/-- A pointer of the inode gets a block if it had none. -/
lemma fillPtr_spec {f : PtrField} (hon : f.slot ∈ on) (h : fillPtr img ino f = some img') :
    Maps ino on img img' ∧ (img'.view.inodes ino).ptr f ≠ 0 := by
  rw [fillPtr] at h
  split at h
  next hptr =>
    cases h
    exact ⟨⟨.refl hst, .refl _⟩, hptr⟩
  next hptr =>
    obtain ⟨⟨b, img1⟩, halloc, rfl⟩ := map_eq_some_iff.mp h
    obtain ⟨hb, hu, hmem, rfl⟩ := blockAlloc_spec halloc
    have hf := fills_field hc hi hb hu f (not_not.mp hptr)
    have hb32 : b < 4294967296 := hb.2.trans hc.totalBlocks_lt
    have hfits : ({ ((img.view.take b).inodes ino).setPtr b f with
        blocks := inc32 ((img.view.take b).inodes ino).blocks } : Inode).Fits := by
      have := (hst.fits ino).setPtr hb32 f
      exact { this with blocks_lt := inc32_lt (hst.fits ino).blocks_lt }
    refine ⟨⟨(Keeps.take hst hmem).trans (.setInode (Keeps.take hst hmem).storable ino hfits),
      .step (.refl _) hf hon⟩, ?_⟩
    rw [set_view, setInode_inodes_self]
    have hself := ((img.view.take b).inodes ino).ptr_setPtr b f
    cases f <;> exact fun hz => hf.ne_zero hc (hself.symm.trans hz)

/-- An entry of a pointer block gets a block if it had none. -/
lemma tableSlot_spec {p q : Slot} (hpq : p.parent = some q) (hon : p ∈ on) {t : ℕ}
    (ht : img.view.slot ino q = t) (ht0 : t ≠ 0)
    (h : tableSlot img t p.index ino = some (b, img')) :
    Maps ino on img img' ∧ img'.view.slot ino p = b ∧ b ≠ 0 := by
  have hentry : img.view.slot ino p = (img.view.data t).word p.index := by
    rw [slot_parent _ _ hpq, ht, View.entry, if_neg ht0]
  rw [tableSlot] at h
  split at h
  next => cases h
  next =>
    split at h
    next hword =>
      cases h
      exact ⟨⟨.refl hst, .refl _⟩, hentry, hword⟩
    next hword =>
      obtain ⟨⟨b', img1⟩, halloc, heq⟩ := map_eq_some_iff.mp h
      obtain ⟨hb, hu, hmem, rfl⟩ := blockAlloc_spec halloc
      cases heq
      have hf := fills_entry hc hi hb hu hpq ht ht0 (hentry.trans (not_not.mp hword))
      have hb0 := hf.ne_zero hc
      -- the pointer block is in use, so it is not the block just taken
      have hne : t ≠ b := by
        rintro rfl
        have hused := hc.used ino q hi (ht ▸ ht0)
        rw [ht, hu] at hused
        cases hused
      have hdata : (img.view.take b).data t = img.view.data t := Function.update_of_ne hne _ _
      have hview : ((img.view.take b).setData t (((img.view.take b).data t).setWord p.index b)
          ).setInode ino { (img.view.take b).inodes ino with
            blocks := inc32 ((img.view.take b).inodes ino).blocks } =
          img.view.fillEntry ino t p.index b := by
        rw [hdata]
        rfl
      have hk1 := Keeps.take hst hmem
      have hk2 := Keeps.setData hk1.storable t (((img.view.take b).data t).setWord p.index b)
      have hk3 := Keeps.setInode hk2.storable ino (hst.fits ino).setBlocks
      refine ⟨⟨(hk1.trans hk2).trans hk3, ?_⟩, ?_, hb0⟩
      · rw [set_view, set_view, hview]
        exact .step (.refl _) hf hon
      · rw [set_view, set_view, hview, hf.slot_eq ino p hi, if_pos ⟨rfl, rfl⟩]

omit hst hc hi in
lemma Maps.storable (h : Maps ino on img img') : Storable img' := h.keeps.storable

/-- Through the double indirect block. -/
lemma bmapDouble_spec {index : ℕ} {k l : Fin 256} (hk : index / 256 = k) (hl : index % 256 = l)
    (h : bmapDouble img ino index = some (b, img')) :
    Maps ino (Slot.leaf k l).path img img' ∧ img'.view.slot ino (.leaf k l) = b ∧ b ≠ 0 := by
  rw [bmapDouble, hk, hl] at h
  obtain ⟨img1, hfill, h⟩ := bind_eq_some_iff.mp h
  obtain ⟨⟨middle, img2⟩, hmiddle, hleaf⟩ := bind_eq_some_iff.mp h
  have hdouble : Slot.double ∈ (Slot.leaf k l).path := by simp [Slot.path]
  have hmid : Slot.middle k ∈ (Slot.leaf k l).path := Slot.parent_mem_path rfl
  obtain ⟨hm1, hptr⟩ := fillPtr_spec hst hc hi (f := .doubleIndirect) hdouble hfill
  have hc1 := hm1.grows.consistent hc
  have hi1 := (hm1.grows.live_iff ino).mpr hi
  obtain ⟨hm2, hslot2, hmid0⟩ := tableSlot_spec hm1.storable hc1 hi1
    (p := .middle k) (q := .double) rfl hmid rfl hptr hmiddle
  obtain ⟨hm3, hslot3, hb0⟩ := tableSlot_spec hm2.storable (hm2.grows.consistent hc1)
    ((hm2.grows.live_iff ino).mpr hi1) (p := .leaf k l) (q := .middle k) rfl (Slot.self_mem_path _)
    hslot2 hmid0 hleaf
  exact ⟨(hm1.trans hm2).trans hm3, hslot3, hb0⟩

/-- `bmap` returns the block in the slot of the index. -/
theorem bmap_spec {index : ℕ} (h : bmap img ino index = some (b, img')) :
    ∃ p, Slot.ofIndex index = some p ∧ Maps ino p.path img img' ∧
      img'.view.slot ino p = b ∧ b ≠ 0 := by
  rw [bmap] at h
  unfold Slot.ofIndex
  by_cases h10 : index < 10
  · rw [dif_pos h10] at h ⊢
    obtain ⟨img1, hfill, heq⟩ := map_eq_some_iff.mp h
    obtain ⟨hm, hptr⟩ := fillPtr_spec hst hc hi (f := .direct ⟨index, h10⟩)
      (Slot.self_mem_path (.direct ⟨index, h10⟩)) hfill
    cases heq
    exact ⟨_, rfl, hm, rfl, hptr⟩
  · rw [dif_neg h10] at h ⊢
    by_cases h256 : index - 10 < 256
    · rw [if_pos h256] at h
      rw [dif_pos h256]
      obtain ⟨img1, hfill, htable⟩ := bind_eq_some_iff.mp h
      obtain ⟨hm1, hptr⟩ := fillPtr_spec hst hc hi (f := .indirect)
        (Slot.parent_mem_path (p := .single ⟨index - 10, h256⟩) rfl) hfill
      obtain ⟨hm2, hslot, hb0⟩ := tableSlot_spec hm1.storable (hm1.grows.consistent hc)
        ((hm1.grows.live_iff ino).mpr hi) (p := .single ⟨index - 10, h256⟩) (q := .indirect) rfl
        (Slot.self_mem_path _) rfl hptr htable
      exact ⟨_, rfl, hm1.trans hm2, hslot, hb0⟩
    · rw [if_neg h256] at h
      rw [dif_neg h256]
      by_cases hbig : index - 10 - 256 < 256 * 256
      · rw [if_neg (not_le.mpr hbig)] at h
        rw [dif_pos hbig]
        exact ⟨_, rfl, bmapDouble_spec hst hc hi rfl rfl h⟩
      · rw [if_pos (not_lt.mp hbig)] at h
        cases h

end BlockMap

/-! ## Files -/

/-- What writing to inode `ino` does: the bytes of the buffer are stored, and nothing else of the
volume changes. -/
structure Written (ino offset : ℕ) (buf : Buf) (start stop : ℕ) (img img' : Image) : Prop where
  keeps : Keeps img img'
  touches : Touches ino img.view img'.view
  stored : Stored ino offset buf img.view img'.view start stop

variable {i : ℕ}

variable {len type : ℕ} {c : View}

/-- The bytes after a chunk was copied into the block that holds it. -/
lemma byteAt_copy_chunk (hc : c.Consistent) (hi : c.Live i) {p : Slot} {pos chunk : ℕ}
    (hchunk : chunk ≤ 1024 - pos % 1024) (hp : Slot.ofIndex (pos / 1024) = some p)
    (hp0 : c.slot i p ≠ 0) (buf : Buf) (done k : ℕ) :
    (c.setData (c.slot i p)
        ((c.data (c.slot i p)).copy (pos % 1024) (buf.drop done) chunk)).byteAt i k =
      if pos ≤ k ∧ k < pos + chunk then buf (done + (k - pos)) else c.byteAt i k := by
  rw [byteAt_setData hc hi (Slot.ofIndex_not_isTable hp) hp0 _ hi]
  simp only [true_and]
  refine ite_chunk hchunk hp fun hk _ => ?_
  rw [View.byteAt, hk]
  exact (if_neg hp0).symm

section Files

variable {img : Image} (hst : Storable img) (hc : img.view.Consistent) {ino : ℕ}
  (hi : img.view.Live ino)

include hst hc hi

/-- The loop stores all bytes, if it does not run out of blocks. -/
lemma writeLoop_spec {offset : ℕ} (hwrap : offset + len ≤ 4294967296) (buf : Buf) (fuel : ℕ)
    {done : ℕ} (hdone : done ≤ len) (hfuel : len ≤ done + fuel)
    (h : writeLoop ino offset buf len fuel img done = some img') :
    Written ino offset buf done len img img' ∧
      (img'.view.inodes ino).size = (img.view.inodes ino).size := by
  induction fuel generalizing img done with
  | zero =>
    cases h
    obtain rfl : done = len := by omega
    exact ⟨⟨.refl hst, .refl hc, .refl ino offset buf (fun _ => rfl) done⟩, rfl⟩
  | succ fuel ih =>
    rw [writeLoop] at h
    by_cases hle : len ≤ done
    · rw [if_pos hle] at h
      cases h
      obtain rfl : done = len := by omega
      exact ⟨⟨.refl hst, .refl hc, .refl ino offset buf (fun _ => rfl) done⟩, rfl⟩
    rw [if_neg hle] at h
    have hmod : (offset + done) % 4294967296 = offset + done := mod_eq_of_lt (by omega)
    simp only [hmod] at h
    generalize hch : min (1024 - (offset + done) % 1024) (len - done) = chunk at h
    cases hbmap : bmap img ino ((offset + done) / 1024) with
    | none =>
      rw [hbmap] at h
      cases h
    | some r =>
      obtain ⟨b, img1⟩ := r
      obtain ⟨p, hp, hm, rfl, hp0⟩ := bmap_spec hst hc hi hbmap
      have hc1 := hm.grows.consistent hc
      have hi1 := (hm.grows.live_iff ino).mpr hi
      have hnot := Slot.ofIndex_not_isTable hp
      rw [hbmap] at h
      dsimp only at h
      split at h
      next =>
        have hk2 := Keeps.setData hm.storable (img1.view.slot ino p)
        have ht2 := Touches.setData hc1 hi1 hnot hp0
        obtain ⟨hw3, hsize⟩ := ih (hk2 _).storable (ht2 _).consistent
          (((ht2 _).live_iff ino).mpr hi1) (by omega) (by omega) h
        refine ⟨⟨(hm.keeps.trans (hk2 _)).trans hw3.keeps,
          ((hm.grows.touches hc).trans (ht2 _)).trans hw3.touches, ?_⟩,
          hsize.trans hm.grows.size_eq⟩
        refine .trans (by omega) (by omega) ⟨fun k => ?_, fun k hk hk' => ?_⟩ hw3.stored
          hw3.touches.slot_kept
        · rw [set_view, byteAt_copy_chunk hc1 hi1 (by omega) hp hp0, hm.grows.byteAt_eq hc hi]
          by_cases hnow : offset + done ≤ k ∧ k < offset + done + chunk
          · rw [if_pos hnow, if_pos (by omega)]
            congr 1
            omega
          · rw [if_neg hnow, if_neg (by omega)]
        · -- a chunk does not leave the block it starts in
          have hdiv : k / 1024 = (offset + done) / 1024 := by omega
          exact ⟨p, by rw [hdiv, hp], by rwa [set_view, (ht2 _).slot_kept p hp0]⟩
      next => cases h

/-- `file_write` stores the whole buffer. -/
theorem fileWrite_spec {offset : ℕ} (hwrap : offset + len < 4294967296) (buf : Buf)
    (h : fileWrite img ino offset buf len = some img') :
    Written ino offset buf 0 len img img' ∧
      (img'.view.inodes ino).size = max (img.view.inodes ino).size (offset + len) := by
  rw [fileWrite] at h
  obtain ⟨img1, hloop, rfl⟩ := map_eq_some_iff.mp h
  obtain ⟨hw, hsize⟩ := writeLoop_spec hst hc hi hwrap.le buf len (zero_le len) (by omega) hloop
  rw [mod_eq_of_lt hwrap]
  by_cases hgrow : (img1.view.inodes ino).size < offset + len
  · rw [if_pos hgrow, ← hsize, max_eq_right hgrow.le]
    have hfits : ({ img1.view.inodes ino with size := offset + len } : Inode).Fits :=
      { hw.keeps.storable.fits ino with size_lt := hwrap }
    have htouch : Touches ino img1.view (img1.view.setInode ino
        { img1.view.inodes ino with size := offset + len }) :=
      Touches.stamp ino (offset + len) (img1.view.inodes ino).mtime hw.touches.consistent
    refine ⟨⟨hw.keeps.trans (.setInode hw.keeps.storable ino hfits), hw.touches.trans htouch,
      ⟨fun k => ?_, fun k hk hk' => ?_⟩⟩, ?_⟩
    · exact (byteAt_stamp img1.view ino (offset + len) (img1.view.inodes ino).mtime ino
        k).trans (hw.stored.bytes k)
    · obtain ⟨p, hp, hp0⟩ := hw.stored.blocks k hk hk'
      exact ⟨p, hp, fun hz => hp0 ((slot_stamp img1.view ino (offset + len)
        (img1.view.inodes ino).mtime ino p).symm.trans hz)⟩
    · rw [set_view, setInode_inodes_self]
  · rw [if_neg hgrow, ← hsize, max_eq_left (not_lt.mp hgrow)]
    exact ⟨hw, rfl⟩

/-- `dir_add` binds a new name, in an entry of its own at the end. -/
theorem dirAdd_spec (hd : img.view.DirOk ino) {name : Name} (hfits : Dirent.Fits ⟨i, name⟩)
    (hi0 : i ≠ 0) (hnew : img.view.child ino name = none) (h : dirAdd img ino name i = some img') :
    Keeps img img' ∧ Touches ino img.view img'.view ∧
      Binds img.view img'.view ino name (some i) := by
  have hmax := maxFileSize_eq
  have hblocks : maxFileBlocks = 65802 := rfl
  have hle := hd.size_le
  have hsize := hd.size_eq
  rw [dirAdd] at h
  split_ifs at h
  rw [hsize] at h
  obtain ⟨hw, hsize'⟩ := fileWrite_spec hst hc hi (by omega) _ h
  have hset := EntrySet.of_stored hsize' hw.stored
  rw [Dirent.decode_encode hfits] at hset
  -- the last byte of the entry has a block, so the entry ends within the largest file
  obtain ⟨p, hp, -⟩ := hw.stored.blocks (32 * img.view.entryCount ino + 31) (by omega) (by omega)
  have hindex := Slot.ofIndex_isSome_iff.mp (isSome_iff_exists.mpr ⟨p, hp⟩)
  exact ⟨hw.keeps, hw.touches, hset.binds_add hd le_rfl (by omega)
    (fun hlt => absurd hlt (lt_irrefl _)) hi0 hnew hw.touches.slot_kept⟩

end Files

/-! ## New nodes -/

/-- A new inode fits its C type. -/
lemma newInode_fits {buildTime : ℕ} (ht : buildTime < 4294967296) (htype : type < 65536) :
    (newInode buildTime type).Fits := by
  constructor <;> simp [newInode, Inode.zero, ht, htype]

/-- `inode_alloc` claims a free inode. -/
lemma inodeAlloc_spec (hst : Storable img) (hc : img.view.Consistent) (htype : type < 65536)
    (hfree : type ≠ typeFree) (h : inodeAlloc img type = some (i, img')) :
    Keeps img img' ∧ Allocs img.view img'.view i type := by
  rw [inodeAlloc] at h
  cases hfind : (range' rootIno (img.view.totalInodes - rootIno)).find?
      fun i => (img.view.inodes i).type = typeFree with
  | none =>
    rw [hfind] at h
    cases h
  | some k =>
    rw [hfind] at h
    cases h
    have hroot : rootIno = 1 := rfl
    have hrange := mem_range'_1.mp (mem_of_find?_eq_some hfind)
    have hvalid : img.view.Valid i := ⟨by omega, by omega⟩
    have hk := Keeps.setInode hst i (newInode_fits hst.time_lt htype)
    exact ⟨hk.trans (.setFreeInodes hk.storable _),
      .of_setInode hc hvalid (by simpa using find?_some hfind)
        ⟨fun _ => rfl, rfl, rfl, rfl⟩ rfl hfree⟩

/-- The size and the time of a new file are set once its contents are written. -/
lemma stamp_spec (hlen : len < 4294967296) (mtime : Option ℕ) (hk : Keeps img img')
    (ht : Touches i img.view img'.view) :
    Keeps img (img'.set (img'.view.setInode i ((img'.view.inodes i).stamp len
        (mtime.elim (img'.view.inodes i).mtime (· % 4294967296))))) ∧
      Touches i img.view (img'.view.setInode i ((img'.view.inodes i).stamp len
        (mtime.elim (img'.view.inodes i).mtime (· % 4294967296)))) := by
  have htime : mtime.elim (img'.view.inodes i).mtime (· % 4294967296) < 4294967296 := by
    cases mtime with
    | none => exact (hk.storable.fits i).mtime_lt
    | some t => exact mod_lt _ (by norm_num)
  exact ⟨hk.trans (.setInode hk.storable i
    { hk.storable.fits i with size_lt := hlen, mtime_lt := htime }),
    ht.trans (.stamp i _ _ ht.consistent)⟩

/-- The invariant of the tool. -/
structure Building (img : Image) : Prop where
  /-- Blocks and inodes are counted and owned rightly. -/
  consistent : img.view.Consistent
  /-- What can be reached is a tree. -/
  sound : img.view.Sound
  /-- Everything in use can be reached. -/
  full : img.view.names.Full
  /-- It can be written out. -/
  storable : Storable img

section Nodes

variable {img : Image} (hst : Storable img) (hc : img.view.Consistent) {i d : ℕ}
  (hi : img.view.Live i)

include hst hc hi

/-- A directory gets its two dots. -/
lemma addDots_spec (hsize : (img.view.inodes i).size = 0) (hd : d ≠ 0) (hd32 : d < 4294967296)
    (h : addDots img i d = some img') :
    Keeps img img' ∧ Touches i img.view img'.view ∧ HasDots img'.view i d := by
  rw [addDots] at h
  obtain ⟨img1, hdot, hdotDot⟩ := bind_eq_some_iff.mp h
  obtain ⟨hok, -, -, hnone⟩ := dirOk_of_size_eq_zero hsize
  obtain ⟨hk1, ht1, hb1⟩ := dirAdd_spec hst hc hi hok (Dirent.fits_dot (hi.1.2.trans
    hc.totalInodes_lt)) hi.1.1.ne' (hnone dot) hdot
  have hnone1 : img1.view.child i dotDot = none := by
    rw [hb1.child_eq, if_neg (by decide), hnone]
  obtain ⟨hk2, ht2, hb2⟩ := dirAdd_spec hk1.storable ht1.consistent ((ht1.live_iff i).mpr hi)
    hb1.dirOk (Dirent.fits_dotDot hd32) hd hnone1 hdotDot
  exact ⟨hk1.trans hk2, ht1.trans ht2, .of_binds hsize hb1 hb2⟩

end Nodes

/-- A node is complete but for its name; then the name is added to its parent. -/
lemma created_of_dirAdd {d : ℕ} {name : Name} (hs : c.Sound)
    (hext : Extends c img.view i d c.child) (hst : Storable img) (hd : c.names.Reached d)
    (hname : IsHostName name) (hnew : c.child d name = none)
    (hdots : img.view.names.dir i → HasDots img.view i d) (h : dirAdd img d name i = some img') :
    Keeps img img' ∧ Created c img'.view d name i ∧
      (img'.view.inodes i).type = (img.view.inodes i).type := by
  have hdir := hs.tree.dir_of_reached hd
  obtain ⟨hne, hdir1⟩ := hext.dir_forth hdir
  have hi : img.view.Live i := (hext.live_iff i).mpr (.inr rfl)
  have hlen : name.length ≤ 27 := by
    rw [dirAdd] at h
    split_ifs at h with hlen
    exact not_lt.mp hlen
  obtain ⟨hk, ht, hb⟩ := dirAdd_spec hst hext.consistent (names_dir_live hdir1)
    (hext.dirOk d hdir (hs.dirOk d hd))
    (show Dirent.Fits ⟨i, name⟩ from
      ⟨hi.1.2.trans hext.consistent.totalInodes_lt, hlen, hname.no_nul⟩)
    hi.1.1.ne' (by rw [hext.child_eq d name hdir, hnew]) h
  have hshows := ht.shows_bind hdir1 hb d
  refine ⟨hk, ⟨hext.rebind hshows, fun _ => entry_eq_none_of_child hnew,
    fun _ => hname.ne_dot, fun _ => hname.ne_dotDot, fun hid => ?_⟩, hshows.type_eq i hi⟩
  have hid1 := (hshows.dir_iff i).mp hid
  exact (hdots hid1).of_shows hshows hid1 hne.symm

section Create

variable {img : Image} (hb : Building img) {parent : ℕ} (hp : img.view.names.Reached parent)
  {name : Name} (hname : IsHostName name) (hnew : img.view.child parent name = none)

include hb hp hname hnew

/-- `make_dir` adds an empty directory. -/
theorem makeDir_spec (h : makeDir img parent name = some (i, img')) :
    Keeps img img' ∧ Created img.view img'.view parent name i ∧ img'.view.IsDir i := by
  rw [makeDir] at h
  obtain ⟨⟨ino, img1⟩, halloc, h⟩ := bind_eq_some_iff.mp h
  obtain ⟨img2, hdots, h⟩ := bind_eq_some_iff.mp h
  obtain ⟨img3, hadd, heq⟩ := map_eq_some_iff.mp h
  cases heq
  have hparent := names_dir_live (hb.sound.tree.dir_of_reached hp)
  obtain ⟨hk1, ha⟩ := inodeAlloc_spec hb.storable hb.consistent (by decide) (by decide) halloc
  obtain ⟨hk2, ht2, hhas⟩ := addDots_spec hk1.storable ha.consistent ha.live ha.size_eq
    hparent.1.1.ne' (hparent.1.2.trans hb.consistent.totalInodes_lt) hdots
  obtain ⟨hk3, hcr, htype⟩ := created_of_dirAdd hb.sound (.of_allocs ha ht2 parent) hk2.storable
    hp hname hnew (fun _ => hhas) hadd
  refine ⟨(hk1.trans hk2).trans hk3, hcr, ((hcr.extends_.live_iff i).mpr (.inr rfl)).1, ?_⟩
  rw [htype, ht2.type_eq, ha.type_eq]

/-- `add_host_file` adds a file. -/
theorem addHostFile_spec {data : List UInt8} {mtime : Option ℕ}
    (h : addHostFile img parent name data mtime = some img') :
    Keeps img img' ∧ ∃ i, Created img.view img'.view parent name i := by
  rw [addHostFile] at h
  split_ifs at h with hsize
  obtain ⟨⟨i, img1⟩, halloc, h⟩ := bind_eq_some_iff.mp h
  obtain ⟨img2, hwrite, hadd⟩ := bind_eq_some_iff.mp h
  obtain ⟨hk1, ha⟩ := inodeAlloc_spec hb.storable hb.consistent (by decide) (by decide) halloc
  obtain ⟨hw, -⟩ := fileWrite_spec hk1.storable ha.consistent ha.live (by omega) _ hwrite
  obtain ⟨hk3, ht3⟩ := stamp_spec (mod_lt data.length (by norm_num)) mtime hw.keeps hw.touches
  -- a file is no directory, so it needs no dots
  obtain ⟨hk4, hcr, -⟩ := created_of_dirAdd hb.sound (.of_allocs ha ht3 parent) hk3.storable hp
    hname hnew (fun hid => absurd ((ht3.type_eq.trans ha.type_eq).symm.trans hid.2) (by decide))
    hadd
  exact ⟨(hk1.trans hk3).trans hk4, i, hcr⟩

omit hname hnew in
/-- A new node keeps the invariant. -/
lemma Building.created (hk : Keeps img img')
    (hcr : Created img.view img'.view parent name i) : Building img' :=
  ⟨hcr.extends_.consistent, hcr.sound hb.sound, hcr.adds.full hb.sound.tree hb.full hp, hk.storable⟩

end Create

/-! ## A staging directory -/

lemma HostDir.Valid.isHostName {h : HostDir} (hv : h.Valid) : ∀ n ∈ h.names, IsHostName n := by
  induction h with
  | nil => exact forall_mem_nil _
  | file name data mtime rest ih => exact forall_mem_cons.mpr ⟨hv.1, ih hv.2.2⟩
  | dir name sub rest _ ih => exact forall_mem_cons.mpr ⟨hv.1, ih hv.2.2.2⟩

/-- What filling `parent` with entries of these names does. -/
structure Grown (parent : ℕ) (names : List Name) (img img' : Image) : Prop where
  /-- The invariant holds again. -/
  building : Building img'
  /-- The layout stays. -/
  keeps : Keeps img img'
  dir : ∀ d, img.view.IsDir d → img'.view.IsDir d
  /-- What was reached stays so. -/
  reached : ∀ d, img.view.names.Reached d → img'.view.names.Reached d
  /-- No other name changes. -/
  child_eq : ∀ d n, img.view.IsDir d → ¬ (d = parent ∧ n ∈ names) →
    img'.view.child d n = img.view.child d n

lemma Grown.refl (hb : Building img) (parent : ℕ) : Grown parent [] img img :=
  ⟨hb, .refl hb.storable, fun _ h => h, fun _ h => h, fun _ _ _ _ => rfl⟩

variable {parent : ℕ}

lemma Grown.of_created (hb : Building img) {name : Name} (hp : img.view.names.Reached parent)
    (hk : Keeps img img')
    (hcr : Created img.view img'.view parent name i) : Grown parent [name] img img' where
  building := hb.created hp hk hcr
  keeps := hk
  dir d hd := (hcr.extends_.dir_forth hd).2
  reached d hd := hcr.adds.reached_forth hb.sound.tree hd
  child_eq d n hd hn := by
    rw [hcr.extends_.child_eq d n hd, rebind_of_not]
    exact fun hdn => hn ⟨hdn.1, mem_singleton.mpr hdn.2⟩

lemma Grown.trans {names names' : List Name} {img'' : Image} (h : Grown parent names img img')
    (h' : Grown parent names' img' img'') :
    Grown parent (names ++ names') img img'' where
  building := h'.building
  keeps := h.keeps.trans h'.keeps
  dir d hd := h'.dir d (h.dir d hd)
  reached d hd := h'.reached d (h.reached d hd)
  child_eq d n hd hn := by
    rw [mem_append, not_and, not_or] at hn
    rw [h'.child_eq d n (h.dir d hd) fun hdn => (hn hdn.1).2 hdn.2,
      h.child_eq d n hd fun hdn => (hn hdn.1).1 hdn.2]

/-- A directory that is not yet there is filled. -/
lemma Grown.fill {names names' : List Name} {img'' : Image} (h : Grown parent names img img')
    (hi : ¬ img.view.IsDir i) (h' : Grown i names' img' img'') : Grown parent names img img'' where
  building := h'.building
  keeps := h.keeps.trans h'.keeps
  dir d hd := h'.dir d (h.dir d hd)
  reached d hd := h'.reached d (h.reached d hd)
  child_eq d n hd hn := by
    rw [h'.child_eq d n (h.dir d hd) fun hdn => hi (hdn.1 ▸ hd), h.child_eq d n hd hn]

/-- `addTree` adds all entries of a staging directory, and those below them. -/
theorem addTree_spec (h : HostDir) (hv : h.Valid) (hb : Building img)
    (hp : img.view.names.Reached parent) (hnew : ∀ n ∈ h.names, img.view.child parent n = none)
    (heq : addTree img parent h = some img') : Grown parent h.names img img' := by
  induction h generalizing img parent img' with
  | nil =>
    cases heq
    exact .refl hb parent
  | file name data mtime rest ih =>
    obtain ⟨hname, hnot, hrest⟩ := hv
    obtain ⟨img1, hfile, heq⟩ := bind_eq_some_iff.mp heq
    have hdir := hb.sound.tree.dir_of_reached hp
    obtain ⟨hk, i, hcr⟩ := addHostFile_spec hb hp hname (hnew name mem_cons_self) hfile
    have hg := Grown.of_created hb hp hk hcr
    refine hg.trans (ih hrest hg.building (hg.reached parent hp) (fun n hn => ?_) heq)
    rw [hg.child_eq parent n hdir, hnew n (mem_cons_of_mem name hn)]
    rintro ⟨-, hmem⟩
    exact hnot (mem_singleton.mp hmem ▸ hn)
  | dir name sub rest ihsub ih =>
    obtain ⟨hname, hnot, hsub, hrest⟩ := hv
    obtain ⟨⟨i, img1⟩, hmake, heq⟩ := bind_eq_some_iff.mp heq
    obtain ⟨img2, hfill, heq⟩ := bind_eq_some_iff.mp heq
    have hdir := hb.sound.tree.dir_of_reached hp
    obtain ⟨hk, hcr, hidir⟩ := makeDir_spec hb hp hname (hnew name mem_cons_self) hmake
    have hg := Grown.of_created hb hp hk hcr
    have hireach : img1.view.names.Reached i :=
      (hg.reached parent hp).step (hcr.adds.named hdir) hidir
    -- the new directory holds nothing but its dots
    have hvacant : ∀ n ∈ sub.names, img1.view.child i n = none := fun n hn => by
      have hplain := hsub.isHostName n hn
      rw [(hcr.dots hidir).child_eq, if_neg hplain.ne_dotDot, if_neg hplain.ne_dot]
    have hfresh : ¬ img.view.IsDir i := fun hi => hcr.extends_.fresh (names_dir_live hi)
    have hg' := hg.fill hfresh (ihsub hsub hg.building hireach hvacant hfill)
    refine hg'.trans (ih hrest hg'.building (hg'.reached parent hp) (fun n hn => ?_) heq)
    rw [hg'.child_eq parent n hdir, hnew n (mem_cons_of_mem name hn)]
    rintro ⟨-, hmem⟩
    exact hnot (mem_singleton.mp hmem ▸ hn)

/-! ## The empty volume and its root -/

section Layout

variable {n : ℕ} (hmin : 1024 ≤ n) (hmax : n ≤ 2147483648)

include hmin hmax

/-- The regions of the volume follow one another, at every size from 1 MiB to 2 TiB. -/
lemma layout_geometry (freeBlocks freeInodes : ℕ) :
    ({ layout n with freeBlocks := freeBlocks, freeInodes := freeInodes } : Superblock).Geometry := by
  have hmod : (n + 8191) % 4294967296 = n + 8191 := mod_eq_of_lt (by omega)
  have hroot : rootIno = 1 := rfl
  constructor <;> simp only [layout, hmod, hroot] <;> omega

/-- The empty volume is consistent. -/
lemma emptyImage_consistent (buildTime : ℕ) : (emptyImage n buildTime).view.Consistent := by
  have hg := layout_geometry hmin hmax 0 0
  have hdead : ∀ i, ¬ (emptyImage n buildTime).view.Live i := fun i hi => hi.2 rfl
  refine ⟨?_, ?_, hg.inodes_lt, fun i p hi => absurd hi (hdead i), fun i p hi => absurd hi (hdead i),
    fun i j p q hi => absurd hi (hdead i), fun b hb hu => ?_, ?_, ?_,
    fun i hi => absurd hi (hdead i)⟩
  · change 0 < (layout n).dataStart
    simp only [layout]
    omega
  · change n < 4294967296
    omega
  · -- no block of the data area is marked
    have hlt : b < (layout n).dataStart := by simpa [emptyImage] using hu
    exact absurd hb.1 (not_le.mpr hlt)
  · have hall : (Finset.Ico (layout n).dataStart n).filter
        (fun b => decide (b < (layout n).dataStart) = false) = Finset.Ico (layout n).dataStart n :=
      Finset.filter_true_of_mem fun b hb => by simpa using (Finset.mem_Ico.mp hb).1
    exact ((congrArg Finset.card hall).trans (card_Ico _ _)).symm
  · have hall : (Finset.Ico 1 (layout n).totalInodes).filter
        (fun i => ((emptyImage n buildTime).view.inodes i).type = typeFree) =
        Finset.Ico 1 (layout n).totalInodes := Finset.filter_true_of_mem fun _ _ => rfl
    exact ((congrArg Finset.card hall).trans (card_Ico _ _)).symm

omit hmin hmax in
lemma emptyImage_storable {buildTime : ℕ} (ht : buildTime < 4294967296) :
    Storable (emptyImage n buildTime) where
  time_lt := ht
  fits i := by constructor <;> simp [emptyImage, Inode.zero]
  inMemory b hb hu := by
    have hlt : b < (layout n).dataStart := by simpa [emptyImage] using hu
    exact absurd hb.1 (not_le.mpr hlt)

/-- After the root is made, it is all there is. -/
lemma makeRoot_building {buildTime : ℕ} (ht : buildTime < 4294967296)
    (h : makeRoot (emptyImage n buildTime) = some img) :
    Building img ∧ Keeps (emptyImage n buildTime) img ∧
      ∀ name, IsHostName name → img.view.child rootIno name = none := by
  rw [makeRoot] at h
  obtain ⟨⟨root, img1⟩, halloc, h⟩ := bind_eq_some_iff.mp h
  dsimp only at h
  split_ifs at h with hroot
  obtain rfl := not_not.mp hroot
  obtain ⟨hk1, ha⟩ := inodeAlloc_spec (emptyImage_storable ht)
    (emptyImage_consistent hmin hmax buildTime) (by decide) (by decide) halloc
  obtain ⟨hk2, ht2, hhas⟩ := addDots_spec hk1.storable ha.consistent ha.live ha.size_eq
    (by decide) (by decide) h
  have hlive : ∀ i, img.view.Live i ↔ i = rootIno := fun i => by
    rw [ht2.live_iff, ha.live_iff]
    exact or_iff_right fun hi => hi.2 rfl
  have hdir : img.view.names.dir rootIno :=
    ⟨((hlive rootIno).mpr rfl).1, by rw [ht2.type_eq, ha.type_eq]⟩
  have hnone : ∀ name, img.view.names.entry rootIno name = none := fun name => by
    by_cases hdots : name = dot ∨ name = dotDot
    · exact if_pos hdots
    · rw [not_or] at hdots
      rw [names_entry hdots.1 hdots.2, hhas.child_eq, if_neg hdots.2, if_neg hdots.1]
  have hreach : ∀ d, img.view.names.Reached d → d = rootIno := fun d hd => by
    refine hd.induct (P := fun d => d = rootIno) rfl ?_
    rintro e k i - rfl hk -
    rw [hnone k] at hk
    cases hk
  have hself : img.view.child rootIno dot = some rootIno := hhas.child_eq dot
  have hup : img.view.child rootIno dotDot = some rootIno := hhas.child_eq dotDot
  have hempty : ∀ {d k i}, img.view.names.Reached d → img.view.names.entry d k = some i →
      False := fun {d k i} hd hk => by
    rw [hreach d hd, hnone k] at hk
    cases hk
  refine ⟨⟨ht2.consistent, ⟨⟨hdir, fun i hi => names_dir_live hi, ?_, ?_, ?_, ?_, ?_, ?_⟩,
    ?_, ?_, ?_⟩, ?_, hk2.storable⟩, hk1.trans hk2, ?_⟩
  · intro d i hd hi
    obtain rfl := hreach d hd
    exact mem_unique hi hself
  · intro p hp
    exact mem_unique hp hup
  · exact fun d k i p hd hk => (hempty hd hk).elim
  · exact fun d k i hd hk => (hempty hd hk).elim
  · exact fun d k i hd hk => (hempty hd hk).elim
  · exact fun d d' k k' i hd _ hk => (hempty hd hk).elim
  · intro d hd
    obtain rfl := hreach d hd
    exact ⟨ne_none_iff_exists'.mpr ⟨_, hself⟩, ne_none_iff_exists'.mpr ⟨_, hup⟩⟩
  · exact fun d hd => (hreach d hd) ▸ hhas.dirOk
  · exact fun d hd => (hreach d hd) ▸ hhas.dense
  · exact fun i hi hne => absurd ((hlive i).mp hi) hne
  · intro name hname
    rw [hhas.child_eq, if_neg hname.ne_dotDot, if_neg hname.ne_dot]

end Layout

/-- Every image that `mkwfs` finishes satisfies the invariant, whatever the staging directory. -/
theorem mkwfs_building {sizeMb time : ℕ} (hsize : sizeMb ≤ 2097152) {staging : HostDir}
    (hv : staging.Valid) (h : mkwfs sizeMb time staging = some img) :
    Building img ∧ Keeps (emptyImage (sizeMb * 1024) (time % 4294967296)) img := by
  rw [mkwfs] at h
  split_ifs at h with hpos
  rw [mod_eq_of_lt (show sizeMb * 1024 < 4294967296 by omega)] at h
  obtain ⟨img1, hroot, hadd⟩ := bind_eq_some_iff.mp h
  obtain ⟨hb, hk, hnone⟩ := makeRoot_building (by omega) (by omega)
    (mod_lt time (by norm_num)) hroot
  have hg := addTree_spec staging hv hb (.root _)
    (fun n hn => hnone n (hv.isHostName n hn)) hadd
  exact ⟨hg.building, hk.trans hg.keeps⟩

/-! ## Mounting the image -/

/-- Every block in use below the last block in memory is written out. -/
lemma lt_foldl_written (used : ℕ → Bool) (start n : ℕ) :
    start ≤ (range' start n).foldl (fun written b => if used b then b + 1 else written) start ∧
      ∀ b, start ≤ b → b < start + n → used b = true →
        b < (range' start n).foldl (fun written b => if used b then b + 1 else written)
          start := by
  -- the induction is on the number of blocks looked at; the last one decides
  induction n with
  | zero => exact ⟨le_rfl, fun b hb hb' => by omega⟩
  | succ n ih =>
    rw [range'_1_concat, foldl_append, foldl_cons, foldl_nil]
    cases hu : used (start + n) with
    | true =>
      rw [if_pos rfl]
      exact ⟨by omega, fun b _ hb' _ => by omega⟩
    | false =>
      rw [if_neg Bool.false_ne_true]
      refine ⟨ih.1, fun b hb hb' hub => ih.2 b hb ?_ hub⟩
      have hne : b ≠ start + n := by
        rintro rfl
        rw [hu] at hub
        cases hub
      omega

/-- The inode table of the image, read back. -/
lemma inodeIn_table {inodes : ℕ → Inode} {base k : ℕ} (hfits : (inodes (base + k)).Fits) :
    inodeIn (fun t => (inodes (base + t / 64)).encode (t % 64)) k = inodes (base + k) := by
  rw [inodeIn]
  conv_rhs => rw [← Inode.decode_encode hfits]
  refine Inode.decode_congr fun j hj => Buf.word_congr fun t ht => ?_
  have hdiv : (64 * k + t) / 64 = k := by omega
  have hmod : (64 * k + t) % 64 = t := by omega
  rw [Buf.drop_apply, hdiv, hmod]

section Mounted

variable {n buildTime : ℕ} (hmin : 1024 ≤ n) (hmax : n ≤ 2147483648) {img : Image}
  (hb : Building img) (hk : Keeps (emptyImage n buildTime) img) (old : ℕ → Buf)

include hmin hmax hk in
lemma superblock_geometry : img.superblock.Geometry := by
  rw [Image.superblock, show img.view.totalBlocks = n from hk.totalBlocks_eq]
  exact layout_geometry hmin hmax _ _

include hk in
lemma superblock_eq : img.superblock.dataStart = img.view.dataStart ∧
    img.superblock.totalBlocks = img.view.totalBlocks ∧
    img.superblock.totalInodes = img.view.totalInodes := by
  have htotal : img.view.totalBlocks = n := hk.totalBlocks_eq
  refine ⟨?_, rfl, ?_⟩
  · rw [Image.superblock, htotal]
    exact hk.dataStart_eq.symm
  · rw [Image.superblock, htotal]
    exact hk.totalInodes_eq.symm

include hb in
/-- Metadata and blocks in use are on the disk. -/
lemma disk_eq (h : b < img.view.dataStart ∨ img.view.InData b ∧ img.view.used b = true) :
    img.disk old b = img.block b := by
  obtain ⟨hle, hlt⟩ := lt_foldl_written img.view.used img.view.dataStart
    (img.built - img.view.dataStart)
  refine if_pos ?_
  rcases h with h | ⟨hin, hu⟩
  · exact h.trans_le hle
  · have hmem := hb.storable.inMemory b hin hu
    have hge := hin.1
    exact hlt b hge (by omega) hu

include hmin hmax hb hk

lemma superblock_fits : img.superblock.Fits := by
  have hg := superblock_geometry hmin hmax hk
  have hfb := Finset.card_filter_le (Finset.Ico img.view.dataStart img.view.totalBlocks)
    fun b => img.view.used b = false
  have hfi := Finset.card_filter_le (Finset.Ico 1 img.view.totalInodes)
    fun i => (img.view.inodes i).type = typeFree
  rw [card_Ico, ← hb.consistent.freeBlocks_eq] at hfb
  rw [card_Ico, ← hb.consistent.freeInodes_eq] at hfi
  have hblocks := hb.consistent.totalBlocks_lt
  have hinodes := hb.consistent.totalInodes_lt
  exact hg.fits (hfb.trans_lt (by omega)) (hfi.trans_lt (by omega))

/-- The disk holds the superblock and the bitmap of the image. -/
lemma disk_mirrors : Mirrors img.superblock img.view.used (img.disk old) := by
  have hg := superblock_geometry hmin hmax hk
  obtain ⟨hstart, -, -⟩ := superblock_eq hk
  have hpos := hg.bitmap_pos
  have hend := hg.bitmap_end
  have hend' := hg.inode_end
  have hcover := hg.bitmap_cover
  refine ⟨?_, fun b hlt => ?_⟩
  · rw [disk_eq hb old (Or.inl (by omega)), Image.block]
    exact Superblock.decode_encode (superblock_fits hmin hmax hb hk)
  have hblock : img.block (img.superblock.bitmapStart + b / 8192) =
      bitmapImage img.view.used (b / 8192) := by
    simp only [Image.block]
    rw [if_neg (by omega), if_pos (by omega), Nat.add_sub_cancel_left]
  rw [disk_eq hb old (Or.inl (by omega)), hblock, bitmapBit_bitmapImage]

/-- The mounted volume has the files of the image. -/
lemma sameFiles_adopted (env : Env) :
    SameFiles img.view (adopted env (img.disk old) img.superblock).view := by
  have hg := superblock_geometry hmin hmax hk
  obtain ⟨hstart, htotal, hinodes⟩ := superblock_eq hk
  have hpos := hg.bitmap_pos
  have hend := hg.bitmap_end
  have hend' := hg.inode_end
  have hcover := hg.inode_cover
  refine ⟨hstart, htotal, hinodes, rfl, rfl, fun i hi => ?_, fun b hin => ?_, fun b hin hu => ?_⟩
  · have hi2 := hi.2
    have hvalid : (adopted env (img.disk old) img.superblock).view.Valid i := by
      rw [Volume.view_valid, show (adopted env (img.disk old) img.superblock).sb.totalInodes =
        img.view.totalInodes from hinodes]
      exact hi
    have hblock : img.block (img.superblock.inodeStart + i / 16) =
        fun t => (img.view.inodes (16 * (i / 16) + t / 64)).encode (t % 64) := by
      simp only [Image.block]
      rw [if_neg (by omega), if_neg (by omega), if_pos (by omega), Nat.add_sub_cancel_left]
    rw [Volume.view_inodes_of_valid hvalid]
    change inodeIn (img.disk old (img.superblock.inodeStart + i / 16)) (i % 16) = _
    rw [disk_eq hb old (Or.inl (by omega)), hblock, inodeIn_table (hb.storable.fits _), div_add_mod]
  · exact adopted_bitmap hg (disk_mirrors hmin hmax hb hk old) env (htotal ▸ hin.2)
  · have hin' : (adopted env (img.disk old) img.superblock).view.InData b := by
      rw [Volume.view_inData]
      exact ⟨hstart.trans_le hin.1, hin.2.trans_eq htotal.symm⟩
    have hge := hin.1
    rw [Volume.view_data_of_inData hin']
    change img.disk old b = _
    rw [disk_eq hb old (Or.inr ⟨hin, hu⟩)]
    simp only [Image.block]
    rw [if_neg (by omega), if_neg (by omega), if_neg (by omega)]

end Mounted

/-- The volume is what the driver mounts from an image that `mkwfs` has made, of any size up to
2 TiB and from any staging directory. -/
def IsFresh (v : Volume) : Prop :=
  ∃ sizeMb time staging img old kmalloc, sizeMb ≤ 2097152 ∧ HostDir.Valid staging ∧
    mkwfs sizeMb time staging = some img ∧ mount v.env kmalloc (img.disk old) = some v

/-- On a device that never fails, a fresh volume is consistent, and its namespace is a tree that
holds every inode in use. -/
theorem IsFresh.intact {v : Volume} (h : IsFresh v) (hcalm : ∀ n b, v.env.fails n b = false) :
    Healthy v ∧ v.view.Consistent ∧ v.view.Sound ∧ v.view.names.Full := by
  obtain ⟨sizeMb, time, staging, img, old, kmalloc, hsize, hvalid, hmk, hmount⟩ := h
  obtain ⟨hb, hk⟩ := mkwfs_building hsize hvalid hmk
  have hpos : 1 ≤ sizeMb := by
    by_contra hlt
    rw [mkwfs, if_pos (by omega)] at hmk
    cases hmk
  have hmin : 1024 ≤ sizeMb * 1024 := by omega
  have hmax : sizeMb * 1024 ≤ 2147483648 := by omega
  have hg := superblock_geometry hmin hmax hk
  rw [mount_eq hg (disk_mirrors hmin hmax hb hk old) kmalloc hcalm] at hmount
  split_ifs at hmount
  have hv : v = adopted v.env (img.disk old) img.superblock := (some.inj hmount).symm
  have hshows := (sameFiles_adopted hmin hmax hb hk old v.env).shows_still hb.consistent 0
  have hhealthy : Healthy (adopted v.env (img.disk old) img.superblock) := ⟨hg, hcalm, rfl⟩
  rw [← hv] at hshows hhealthy
  exact ⟨hhealthy, hshows.consistent, hshows.sound hb.sound, hshows.same.full hb.sound.tree hb.full⟩

/-! ## A small volume -/

/-- A staging directory with two files and a subdirectory that holds a third. -/
def sampleDir : HostDir :=
  .file (ascii "a") (ascii "hello") none
    (.file (ascii "b") (ascii "bye") none (.dir (ascii "d") (.file (ascii "c") [] none .nil) .nil))

/-- A device that never fails, and a clock that stands still. -/
def sampleEnv : Env := ⟨fun _ => 0, Buf.zero, fun _ _ => false⟩

/-- A volume of 1 MiB made from `sampleDir`. -/
def sampleImage : Image := (mkwfs 1 0 sampleDir).getD (emptyImage 1024 0)

/-- The driver's state after it has mounted that volume. -/
@[irreducible]
def sample : Volume :=
  adopted sampleEnv (sampleImage.disk fun _ => Buf.zero) sampleImage.superblock

lemma sampleDir_valid : sampleDir.Valid := by
  have hname : ∀ name ∈ [ascii "a", ascii "b", ascii "c", ascii "d"],
      name ≠ dot ∧ name ≠ dotDot ∧ ∀ b ∈ name, b ≠ 0 := by
    decide +kernel
  have hhost : ∀ name ∈ [ascii "a", ascii "b", ascii "c", ascii "d"], IsHostName name :=
    fun name h => ⟨(hname name h).1, (hname name h).2.1, (hname name h).2.2⟩
  have hdistinct : ascii "a" ∉ [ascii "b", ascii "d"] ∧ ascii "b" ∉ [ascii "d"] := by
    decide
  exact ⟨hhost _ (by simp), hdistinct.1, hhost _ (by simp), hdistinct.2, hhost _ (by simp),
    not_mem_nil, ⟨hhost _ (by simp), not_mem_nil, trivial⟩, trivial⟩

lemma mkwfs_sampleDir : mkwfs 1 0 sampleDir = some sampleImage := by
  have hsome : (mkwfs 1 0 sampleDir).isSome = true := by decide +kernel
  obtain ⟨img, himg⟩ := isSome_iff_exists.mp hsome
  rw [sampleImage, himg, getD_some]

lemma sample_setEnv : { sample with env := sampleEnv } = sample := by
  unfold sample
  exact adopted_setEnv _ _ _

lemma sample_totalInodes : sample.view.totalInodes = 64 := by decide +kernel

/-- Its subdirectory has inode 4. -/
lemma sample_isDir : sample.view.IsDir 4 := ⟨by decide +kernel, by decide +kernel⟩

lemma isFresh_sample : IsFresh sample := by
  obtain ⟨hb, hk⟩ := mkwfs_building (by norm_num) sampleDir_valid mkwfs_sampleDir
  refine ⟨1, 0, sampleDir, sampleImage, fun _ => Buf.zero, fun _ => true, by norm_num,
    sampleDir_valid, mkwfs_sampleDir, ?_⟩
  rw [mount_eq (superblock_geometry (by decide) (by decide) hk)
    (disk_mirrors (by decide) (by decide) hb hk _) _ fun n b => by unfold sample; rfl]
  unfold sample
  rfl

lemma sample_intact : Healthy sample ∧ sample.view.Consistent ∧ sample.view.Sound ∧
    sample.view.names.Full :=
  isFresh_sample.intact fun n b => by unfold sample; rfl

end Wos.Mkwfs
