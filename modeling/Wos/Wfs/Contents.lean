import Wos.Wfs.BlockMap

/-!
# What reading, writing and truncating do to the contents of files

The contents of an inode are the bytes `View.byteAt`, up to its size. `wfs_write` replaces a range
of them and nothing of any other inode, `wfs_read` returns a range of them, and `wfs_truncate`
leaves none.

## Main definitions

* `Touches`: a change of the view that is confined to one inode;
* `Writes`: a change of the volume and of the copy of the inode during `wfs_write`.

## Main results

* `writeLoop_spec`, `writeFile_spec`, `readFile_spec`.
-/

namespace Wos.Wfs

open View Finset Nat

/-! ## Changes confined to one inode -/

/-- The view changes only in what belongs to inode `i`, and stays consistent. Blocks the inode
holds it keeps. -/
structure Touches (i : ℕ) (c c' : View) : Prop where
  consistent : c'.Consistent
  dataStart_eq : c'.dataStart = c.dataStart
  totalBlocks_eq : c'.totalBlocks = c.totalBlocks
  totalInodes_eq : c'.totalInodes = c.totalInodes
  freeInodes_eq : c'.freeInodes = c.freeInodes
  /-- Other inodes stay. -/
  inodes_eq : ∀ j, j ≠ i → c'.inodes j = c.inodes j
  type_eq : (c'.inodes i).type = (c.inodes i).type
  /-- So do their blocks. -/
  slot_other : ∀ j p, j ≠ i → c.Live j → c'.slot j p = c.slot j p
  /-- The inode keeps its blocks. -/
  slot_kept : ∀ p, c.slot i p ≠ 0 → c'.slot i p = c.slot i p
  /-- Other files keep their bytes. -/
  byteAt_other : ∀ j k, j ≠ i → c.Live j → c'.byteAt j k = c.byteAt j k

namespace Touches

variable {i : ℕ} {c c' c'' : View}

lemma refl (hc : c.Consistent) : Touches i c c :=
  ⟨hc, rfl, rfl, rfl, rfl, fun _ _ => rfl, rfl, fun _ _ _ _ => rfl, fun _ _ => rfl,
    fun _ _ _ _ => rfl⟩

lemma type_eq_all (h : Touches i c c') (j : ℕ) : (c'.inodes j).type = (c.inodes j).type := by
  by_cases hj : j = i
  · rw [hj, h.type_eq]
  · rw [h.inodes_eq j hj]

lemma live_iff (h : Touches i c c') (j : ℕ) : c'.Live j ↔ c.Live j := by
  simp only [View.Live, View.Valid, h.totalInodes_eq, h.type_eq_all]

lemma trans (h : Touches i c c') (h' : Touches i c' c'') : Touches i c c'' where
  consistent := h'.consistent
  dataStart_eq := h'.dataStart_eq.trans h.dataStart_eq
  totalBlocks_eq := h'.totalBlocks_eq.trans h.totalBlocks_eq
  totalInodes_eq := h'.totalInodes_eq.trans h.totalInodes_eq
  freeInodes_eq := h'.freeInodes_eq.trans h.freeInodes_eq
  inodes_eq j hj := (h'.inodes_eq j hj).trans (h.inodes_eq j hj)
  type_eq := h'.type_eq.trans h.type_eq
  slot_other j p hj hl :=
    (h'.slot_other j p hj ((h.live_iff j).mpr hl)).trans (h.slot_other j p hj hl)
  slot_kept p hp := by
    have hp' := h.slot_kept p hp
    rw [h'.slot_kept p (by rwa [hp']), hp']
  byteAt_other j k hj hl :=
    (h'.byteAt_other j k hj ((h.live_iff j).mpr hl)).trans (h.byteAt_other j k hj hl)

end Touches

variable {c c' : View} {i : ℕ} {p : Slot} {b : ℕ}

/-- A filled slot touches only the inode it belongs to. -/
lemma Fills.touches (h : Fills c c' i p b) (hc : c.Consistent) : Touches i c c' where
  __ := h
  consistent := h.consistent hc
  slot_other j q hj hl := by rw [h.slot_eq j q hl, if_neg (fun hjq => hj hjq.1)]
  slot_kept q hq := by
    have hne : q ≠ p := by
      rintro rfl
      exact hq h.empty
    rw [h.slot_eq i q h.live, if_neg (fun hjq => hne hjq.2)]
  byteAt_other j k _ hl := h.byteAt_eq hc hl k

variable {on : List Slot}

lemma Grows.touches (h : Grows i on c c') (hc : c.Consistent) : Touches i c c' := by
  induction h with
  | refl => exact .refl hc
  | step hg hf _ ih => exact ih.trans (hf.touches (hg.consistent hc))

lemma Grows.size_eq (h : Grows i on c c') : (c'.inodes i).size = (c.inodes i).size := by
  induction h with
  | refl => rfl
  | step _ hf _ ih => rw [hf.size_eq, ih]

/-! ## Accounting for blocks -/

open Classical in
/-- The blocks of the data area that inodes other than `i` hold. -/
noncomputable def View.heldByOthers (c : View) (i : ℕ) : Finset ℕ :=
  (Finset.Ico c.dataStart c.totalBlocks).filter fun b => ∃ j p, j ≠ i ∧ c.Live j ∧ c.slot j p = b

/-- Every block of the data area is free, held by `i`, or held by another inode. -/
lemma View.Consistent.card_blocks (hc : c.Consistent) (hi : c.Live i) :
    c.freeBlocks + ((c.held i).card + (c.heldByOthers i).card) = c.totalBlocks - c.dataStart := by
  classical
  have hmine : ((Finset.Ico c.dataStart c.totalBlocks).filter fun b =>
      ¬ c.used b = false ∧ b ∈ (c.held i).image (c.slot i)).card = (c.held i).card := by
    rw [← Finset.card_image_of_injOn (s := c.held i) (f := c.slot i)]
    · congr 1
      ext b
      simp only [mem_filter, mem_image, mem_held, mem_Ico]
      constructor
      · exact fun h => h.2.2
      · rintro ⟨p, hp, rfl⟩
        exact ⟨hc.inData i p hi hp, by simp [hc.used i p hi hp], p, hp, rfl⟩
    · intro p hp q _ hpq
      rw [mem_coe, mem_held] at hp
      exact (hc.unique i i p q hi hi hp hpq).2
  have hothers : ((Finset.Ico c.dataStart c.totalBlocks).filter fun b =>
      ¬ c.used b = false ∧ b ∉ (c.held i).image (c.slot i)) = c.heldByOthers i := by
    unfold heldByOthers
    refine filter_congr fun b hb => ?_
    rw [mem_Ico] at hb
    have hb0 : b ≠ 0 := hc.ne_zero hb
    simp only [Bool.not_eq_false, mem_image, mem_held, not_exists, not_and]
    constructor
    · rintro ⟨hu, hnot⟩
      obtain ⟨j, p, hj, hp⟩ := hc.owned b hb hu
      refine ⟨j, p, ?_, hj, hp⟩
      rintro rfl
      exact hnot p (hp ▸ hb0) hp
    · rintro ⟨j, p, hji, hj, rfl⟩
      exact ⟨hc.used j p hj hb0, fun q hq hqp => hji (hc.unique i j q p hi hj hq hqp).1.symm⟩
  have hused := card_filter_add_card_filter_not
    (s := (Finset.Ico c.dataStart c.totalBlocks).filter fun b => ¬ c.used b = false)
    fun b => b ∈ (c.held i).image (c.slot i)
  rw [filter_filter, filter_filter, hmine, hothers] at hused
  rw [hused, hc.freeBlocks_eq, card_filter_add_card_filter_not, card_Ico]

/-- What one inode gains in blocks, the volume loses. -/
lemma Touches.freeBlocks_add (h : Touches i c c') (hc : c.Consistent)
    (hi : c.Live i) : c'.freeBlocks + (c'.held i).card = c.freeBlocks + (c.held i).card := by
  have hothers : c'.heldByOthers i = c.heldByOthers i := by
    unfold View.heldByOthers
    rw [h.dataStart_eq, h.totalBlocks_eq]
    congr 1
    refine funext fun b => propext <| exists_congr fun j => exists_congr fun p =>
      and_congr_right fun hji => ?_
    rw [h.live_iff]
    exact and_congr_right fun hj => by rw [h.slot_other j p hji hj]
  have hcard := hc.card_blocks hi
  have hcard' := h.consistent.card_blocks ((h.live_iff i).mpr hi)
  rw [hothers, h.totalBlocks_eq, h.dataStart_eq] at hcard'
  omega

/-! ## Writing a block of contents -/

variable {buf : Buf} {j : ℕ}

/-- Writing a block that is none of the pointer blocks of an inode leaves its slots alone. -/
lemma View.slot_setData_of_ne (h : ∀ r, r.IsTable → c.slot j r ≠ 0 → c.slot j r ≠ b) (q : Slot) :
    (c.setData b buf).slot j q = c.slot j q := by
  induction q using Slot.parent_induction with
  | root q hq => cases q <;> first | rfl | cases hq
  | entry q r hqr ih =>
    rw [slot_parent _ j hqr, ih, slot_parent c j hqr, entry, entry]
    split_ifs with hr0
    · rfl
    rw [show (c.setData b buf).data (c.slot j r) = c.data (c.slot j r) from
      Function.update_of_ne (h r (Slot.parent_isTable hqr) hr0) _ _]

section SetData

variable {c : View} (hc : c.Consistent) {i : ℕ} (hi : c.Live i) {p : Slot} (hp : ¬ p.IsTable)
  (hp0 : c.slot i p ≠ 0) (buf : Buf)

include hc hi hp hp0

/-- Writing a block of contents leaves the slots alone: it is no pointer block. -/
lemma View.slot_setData (hj : c.Live j) (q : Slot) :
    (c.setData (c.slot i p) buf).slot j q = c.slot j q := by
  refine slot_setData_of_ne (fun r hr hr0 hsame => ?_) q
  obtain ⟨-, rfl⟩ := hc.unique j i r p hj hi hr0 hsame
  exact hp hr

lemma View.Consistent.setData : (c.setData (c.slot i p) buf).Consistent :=
  hc.congr rfl rfl rfl rfl rfl (fun _ _ => rfl) (fun _ _ => ⟨rfl, rfl⟩) fun _ q hj =>
    slot_setData hc hi hp hp0 buf hj q

/-- The bytes after a block of contents is written. -/
lemma View.byteAt_setData (hj : c.Live j) (k : ℕ) :
    (c.setData (c.slot i p) buf).byteAt j k =
      if j = i ∧ Slot.ofIndex (k / 1024) = some p then buf (k % 1024) else c.byteAt j k := by
  unfold byteAt
  cases hq : Slot.ofIndex (k / 1024) with
  | none => simp
  | some q =>
    dsimp only
    rw [slot_setData hc hi hp hp0 buf hj q]
    by_cases hjq : j = i ∧ q = p
    · obtain ⟨rfl, rfl⟩ := hjq
      rw [if_neg hp0, if_pos ⟨rfl, rfl⟩]
      exact congrFun (Function.update_self ..) _
    have hother : ¬ (j = i ∧ some q = some p) := fun h => hjq ⟨h.1, Option.some.inj h.2⟩
    rw [if_neg hother]
    by_cases hq0 : c.slot j q = 0
    · rw [if_pos hq0, if_pos hq0]
    have hne : c.slot j q ≠ c.slot i p := fun hsame =>
      hjq (hc.unique j i q p hj hi hq0 hsame)
    rw [if_neg hq0, if_neg hq0]
    exact congrFun (Function.update_of_ne hne _ _) _

lemma Touches.setData : Touches i c (c.setData (c.slot i p) buf) where
  consistent := hc.setData hi hp hp0 buf
  dataStart_eq := rfl
  totalBlocks_eq := rfl
  totalInodes_eq := rfl
  freeInodes_eq := rfl
  inodes_eq _ _ := rfl
  type_eq := rfl
  slot_other j q _ hj := slot_setData hc hi hp hp0 buf hj q
  slot_kept q _ := slot_setData hc hi hp hp0 buf hi q
  byteAt_other j k hji hj := by
    rw [byteAt_setData hc hi hp hp0 buf hj, if_neg (fun h => hji h.1)]

end SetData

/-! ## The write loop -/

/-- What `wfs_write` changes while its loop runs. -/
structure Writes (ino : ℕ) (m m' : MapState) : Prop where
  kept : Mapping m' ino
  frame_eq : m'.vol.frame = m.vol.frame
  inodes_eq : m'.vol.view.inodes = m.vol.view.inodes
  size_eq : m'.inode.size = m.inode.size
  touches : Touches ino (m.view ino) (m'.view ino)

variable {ino : ℕ} {m : MapState}

lemma Writes.refl (h : Mapping m ino) : Writes ino m m :=
  ⟨h, rfl, rfl, rfl, .refl h.consistent⟩

lemma Writes.trans {m' m'' : MapState} (h : Writes ino m m')
    (h' : Writes ino m' m'') : Writes ino m m'' :=
  ⟨h'.kept, h'.frame_eq.trans h.frame_eq, h'.inodes_eq.trans h.inodes_eq,
    h'.size_eq.trans h.size_eq, h.touches.trans h'.touches⟩

lemma Maps.writes {m' : MapState} (hm : Mapping m ino)
    (h : Maps ino on m m') : Writes ino m m' := by
  refine ⟨h.kept, h.frame_eq, h.inodes_eq, ?_, h.grows.touches hm.consistent⟩
  have hsize := h.grows.size_eq
  rwa [MapState.view, MapState.view, setInode_inodes_self, setInode_inodes_self] at hsize

variable {done off : ℕ}

section WriteLoop

variable {ino : ℕ}

/-- One block of contents is written back. -/
lemma Mapping.writeBlock (h : Mapping m ino) (hp : ¬ p.IsTable)
    (hp0 : (m.view ino).slot ino p ≠ 0) (buf : Buf) :
    ∃ vol, blockWrite m.vol ((m.view ino).slot ino p) buf = (true, vol) ∧
      Writes ino m { m with vol := vol } ∧
      (∀ q, ({ m with vol := vol }.view ino).slot ino q = (m.view ino).slot ino q) ∧
      ∀ k, ({ m with vol := vol }.view ino).byteAt ino k =
        if Slot.ofIndex (k / 1024) = some p then buf (k % 1024) else (m.view ino).byteAt ino k := by
  obtain ⟨vol, hw, hview, hframe⟩ := blockWrite_data_spec h.healthy
    (h.consistent.inData ino p h.live hp0) buf
  have hm' : { m with vol := vol }.view ino = (m.view ino).setData ((m.view ino).slot ino p) buf := by
    rw [MapState.view, hview]
    rfl
  have hinodes : vol.view.inodes = m.vol.view.inodes := by
    rw [hview]
    rfl
  have htouch := Touches.setData h.consistent h.live hp hp0 buf
  refine ⟨vol, hw, ⟨⟨h.healthy.of_frame hframe, ?_, ?_, h.fits, ?_⟩, hframe, hinodes, rfl, ?_⟩,
    ?_, ?_⟩
  · rw [hm']
    exact htouch.consistent
  · rw [hm', htouch.live_iff]
    exact h.live
  · intro hclean
    rw [hinodes]
    exact h.clean hclean
  · rw [hm']
    exact htouch
  · intro q
    rw [hm', slot_setData h.consistent h.live hp hp0 buf h.live]
  · intro k
    rw [hm', byteAt_setData h.consistent h.live hp hp0 buf h.live]
    simp only [true_and]

/-- The bytes of one iteration: `chunk` bytes of the buffer at `pos`, all in one block. -/
lemma ite_chunk {pos chunk k : ℕ} (hchunk : chunk ≤ 1024 - pos % 1024)
    (hp : Slot.ofIndex (pos / 1024) = some p) {tmp : Buf} {old : UInt8}
    (htmp : Slot.ofIndex (k / 1024) = some p → ¬ (pos ≤ k ∧ k < pos + chunk) →
      tmp (k % 1024) = old) :
    (if Slot.ofIndex (k / 1024) = some p
      then tmp.copy (pos % 1024) (buf.drop done) chunk (k % 1024) else old) =
      if pos ≤ k ∧ k < pos + chunk then buf (done + (k - pos)) else old := by
  by_cases hk : pos ≤ k ∧ k < pos + chunk
  · have hdiv : k / 1024 = pos / 1024 := by omega
    rw [if_pos (by rw [hdiv, hp]), if_pos hk,
      Buf.copy_apply_of_lt (by omega) (by omega), Buf.drop_apply]
    congr 2
    omega
  · rw [if_neg hk]
    split
    next hsame =>
      have hdiv : k / 1024 = pos / 1024 := Slot.ofIndex_inj hsame hp
      rw [Buf.copy_apply_of_not (by omega)]
      exact htmp hsame hk
    next => rfl

/-- One iteration of the loop once `bmap` has found a block: a chunk of the buffer is stored. -/
lemma Mapping.writeChunk (h : Mapping m ino) {pos chunk : ℕ} (hchunk : chunk ≤ 1024 - pos % 1024)
    (hp : Slot.ofIndex (pos / 1024) = some p) (hp0 : (m.view ino).slot ino p ≠ 0) (buf : Buf)
    (done : ℕ) :
    ∃ tmp vol,
      (if chunk ≠ 1024 then blockRead m.vol ((m.view ino).slot ino p)
        else some m.vol.env.junk) = some tmp ∧
      blockWrite m.vol ((m.view ino).slot ino p)
        (tmp.copy (pos % 1024) (buf.drop done) chunk) = (true, vol) ∧
      Writes ino m { m with vol := vol } ∧
      (∀ q, ({ m with vol := vol }.view ino).slot ino q = (m.view ino).slot ino q) ∧
      ∀ k, ({ m with vol := vol }.view ino).byteAt ino k =
        if pos ≤ k ∧ k < pos + chunk then buf (done + (k - pos))
        else (m.view ino).byteAt ino k := by
  have hnot := Slot.ofIndex_not_isTable hp
  have hdata := h.consistent.inData ino p h.live hp0
  obtain ⟨tmp, htmp, hold⟩ : ∃ tmp,
      (if chunk ≠ 1024 then blockRead m.vol ((m.view ino).slot ino p)
        else some m.vol.env.junk) = some tmp ∧
      ∀ k, Slot.ofIndex (k / 1024) = some p → ¬ (pos ≤ k ∧ k < pos + chunk) →
        tmp (k % 1024) = (m.view ino).byteAt ino k := by
    by_cases hfull : chunk = 1024
    · -- the whole block is replaced, so what the buffer held before does not matter
      refine ⟨_, if_neg (not_not.mpr hfull), ?_⟩
      intro k hk hout
      have hdiv : k / 1024 = pos / 1024 := Slot.ofIndex_inj hk hp
      omega
    · refine ⟨m.vol.view.data ((m.view ino).slot ino p), ?_, ?_⟩
      · rw [if_pos hfull]
        exact blockRead_data h.healthy hdata
      intro k hk _
      rw [View.byteAt, hk]
      dsimp only
      rw [if_neg hp0]
      rfl
  obtain ⟨vol, hw, hwrites, hslots, hbytes⟩ :=
    h.writeBlock hnot hp0 (tmp.copy (pos % 1024) (buf.drop done) chunk)
  refine ⟨tmp, vol, htmp, hw, hwrites, hslots, ?_⟩
  intro k
  rw [hbytes k]
  exact ite_chunk hchunk hp (hold k)

/-- How the write loop ended: with all bytes stored, or with `bmap` refusing the next block. -/
def WriteEnded (ino off len : ℕ) (m' : MapState) (done' : ℕ) : WriteEnd → Prop
  | .finished => done' = len
  | .stopped e => done' < len ∧
      BmapResult ino ((off + done') % 4294967296 / 1024) m' (.error e)
  | .failed => False

/-- What the write loop has done between `done` and `done'`, where the offsets do not wrap around:
the bytes of the buffer are stored, in blocks the inode holds, and no other byte changed. -/
structure Stored (ino off : ℕ) (buf : Buf) (c c' : View) (done done' : ℕ) : Prop where
  bytes : ∀ k, c'.byteAt ino k =
    if off + done ≤ k ∧ k < off + done' then buf (k - off) else c.byteAt ino k
  blocks : ∀ k, off + done ≤ k → k < off + done' →
    ∃ p, Slot.ofIndex (k / 1024) = some p ∧ c'.slot ino p ≠ 0

lemma Stored.refl (ino off : ℕ) (buf : Buf) (h : ∀ k, c'.byteAt ino k = c.byteAt ino k)
    (done : ℕ) : Stored ino off buf c c' done done := by
  refine ⟨fun k => ?_, fun k _ _ => by omega⟩
  rw [if_neg (by omega), h]

/-- Two stretches behind each other. -/
lemma Stored.trans {c'' : View} {a d : ℕ} (hab : a ≤ b) (hbd : b ≤ d)
    (h : Stored ino off buf c c' a b) (h' : Stored ino off buf c' c'' b d)
    (hkept : ∀ p, c'.slot ino p ≠ 0 → c''.slot ino p = c'.slot ino p) :
    Stored ino off buf c c'' a d := by
  refine ⟨fun k => ?_, fun k hk hk' => ?_⟩
  · rw [h'.bytes k, h.bytes k]
    by_cases hlater : off + b ≤ k ∧ k < off + d
    · rw [if_pos hlater, if_pos (by omega)]
    rw [if_neg hlater]
    by_cases hnow : off + a ≤ k ∧ k < off + b
    · rw [if_pos hnow, if_pos (by omega)]
    · rw [if_neg hnow, if_neg (by omega)]
  · by_cases hlater : off + b ≤ k
    · exact h'.blocks k hlater hk'
    · obtain ⟨p, hp, hp0⟩ := h.blocks k hk (by omega)
      exact ⟨p, hp, by rwa [hkept p hp0]⟩

/-- How the block at which a write starts decides whether anything is written: `wrote` says that
something is. If not, only slots on the way to that block may have been filled. -/
structure Started (ino index : ℕ) (c c' : View) (wrote : Prop) : Prop where
  iff : wrote ↔ c.CanMap ino index
  slot_eq : ¬ wrote → ∀ q, q ∉ Slot.pathOf index → c'.slot ino q = c.slot ino q

/-- Only slots on the way to the blocks of a range may have been filled. -/
def Confined (ino off start stop : ℕ) (c c' : View) : Prop :=
  ∀ q, (∀ k, start ≤ k → k < stop → q ∉ Slot.pathOf ((off + k) % 4294967296 / 1024)) →
    c'.slot ino q = c.slot ino q

/-- The write loop stores the bytes of the buffer one after another until it is done or there is
no room. -/
theorem writeLoop_spec (off : ℕ) (buf : Buf) (len : ℕ) (fuel : ℕ) (h : Mapping m ino)
    (hdone : done ≤ len) (hfuel : len ≤ done + fuel) :
    ∃ e m' done', writeLoop off buf len fuel m done = (e, m', done') ∧ Writes ino m m' ∧
      done ≤ done' ∧ done' ≤ len ∧ WriteEnded ino off len m' done' e ∧
      (off + len ≤ 4294967296 → Stored ino off buf (m.view ino) (m'.view ino) done done') ∧
      (done < len → Started ino ((off + done) % 4294967296 / 1024) (m.view ino) (m'.view ino)
        (done < done')) ∧ Confined ino off done len (m.view ino) (m'.view ino) := by
  induction fuel generalizing m done with
  | zero =>
    exact ⟨_, _, _, rfl, .refl h, le_rfl, hdone, show done = len by omega,
      fun _ => .refl ino off buf (fun _ => rfl) done, fun hlt => by omega, fun _ _ => rfl⟩
  | succ fuel ih =>
    rw [writeLoop]
    by_cases hle : len ≤ done
    · rw [if_pos hle]
      exact ⟨_, _, _, rfl, .refl h, le_rfl, hdone, le_antisymm hdone hle,
        fun _ => .refl ino off buf (fun _ => rfl) done, fun hlt => absurd hle hlt.not_ge,
        fun _ _ => rfl⟩
    rw [if_neg hle]
    obtain ⟨r, m1, hbmap, hmaps, hres⟩ := bmap_alloc h ((off + done) % 4294967296 / 1024)
    have hw1 := hmaps.writes h
    have hbytes1 : ∀ k, (m1.view ino).byteAt ino k = (m.view ino).byteAt ino k :=
      hmaps.grows.byteAt_eq h.consistent h.live
    have hstart := bmap_ok_iff h hmaps hres
    dsimp only
    rw [hbmap]
    cases r with
    | error e =>
      refine ⟨_, _, _, rfl, hw1, le_rfl, hdone, ⟨by omega, hres⟩,
        fun _ => .refl ino off buf hbytes1 done, fun _ => ⟨?_, ?_⟩, fun q hq =>
          hmaps.grows.slot_eq_of_notMem (hq done le_rfl (by omega))⟩
      · exact iff_of_false (lt_irrefl _) fun hcan => by
          obtain ⟨b, hb⟩ := hstart.mpr hcan
          cases hb
      · exact fun _ q hq => hmaps.grows.slot_eq_of_notMem hq
    | ok block =>
      have hcan := hstart.mp ⟨_, rfl⟩
      obtain ⟨p, hp, rfl, hp0⟩ := hres
      obtain ⟨tmp, vol, htmp, hw, hw2, hslots2, hbytes2⟩ := hmaps.kept.writeChunk
        (min_le_left (1024 - (off + done) % 4294967296 % 1024) (len - done)) hp hp0 buf done
      dsimp only
      rw [htmp]
      dsimp only
      rw [hw]
      generalize hch : min (1024 - (off + done) % 4294967296 % 1024) (len - done) = chunk at *
      have hpos : 0 < chunk := by omega
      have hle' : done + chunk ≤ len := by omega
      obtain ⟨e, m', done', hloop, hw3, hge, hle'', hend, hstored, -, hconf⟩ :=
        ih hw2.kept hle' (by omega)
      have hwrote : done < done' := by omega
      refine ⟨e, m', done', hloop, (hw1.trans hw2).trans hw3, by omega, hle'', hend, ?_,
        fun _ => ⟨iff_of_true hwrote hcan, fun hnot => absurd hwrote hnot⟩, fun q hq => ?_⟩
      swap
      · rw [hconf q fun k hk => hq k (by omega), hslots2 q]
        exact hmaps.grows.slot_eq_of_notMem (hq done le_rfl (by omega))
      intro hwrap
      have hmod : (off + done) % 4294967296 = off + done := mod_eq_of_lt (by omega)
      rw [hmod] at hp hch
      refine .trans (by omega) hge ⟨fun k => ?_, fun k hk hk' => ?_⟩ (hstored hwrap)
        hw3.touches.slot_kept
      · rw [hbytes2 k, hbytes1 k, hmod]
        by_cases hnow : off + done ≤ k ∧ k < off + done + chunk
        · rw [if_pos hnow, if_pos (by omega)]
          congr 1
          omega
        · rw [if_neg hnow, if_neg (by omega)]
      · -- a chunk does not leave the block it starts in
        have hdiv : k / 1024 = (off + done) / 1024 := by omega
        exact ⟨p, by rw [hdiv, hp], by rwa [hw2.touches.slot_kept p hp0]⟩

end WriteLoop

/-! ## Size and time -/

/-- The inode with its size and time replaced. -/
def Inode.stamp (n : Inode) (size mtime : ℕ) : Inode := { n with size := size, mtime := mtime }

section Stamp

variable (c : View) (i size mtime : ℕ)

lemma View.slot_stamp (j : ℕ) (p : Slot) :
    (c.setInode i ((c.inodes i).stamp size mtime)).slot j p = c.slot j p := by
  by_cases hj : j = i
  · subst hj
    rw [slot_setInode_self]
    cases p <;> rfl
  · rw [slot, setInode_inodes_of_ne c hj]
    cases p <;> rfl

lemma View.byteAt_stamp (j k : ℕ) :
    (c.setInode i ((c.inodes i).stamp size mtime)).byteAt j k = c.byteAt j k := by
  unfold byteAt
  simp only [slot_stamp]
  rfl

lemma View.node_stamp (j : ℕ) :
    ((c.setInode i ((c.inodes i).stamp size mtime)).inodes j).type = (c.inodes j).type ∧
      ((c.setInode i ((c.inodes i).stamp size mtime)).inodes j).blocks = (c.inodes j).blocks := by
  by_cases hj : j = i
  · rw [hj, setInode_inodes_self]
    exact ⟨rfl, rfl⟩
  · rw [setInode_inodes_of_ne c hj]
    exact ⟨rfl, rfl⟩

variable {c}

/-- A new size and time touch neither blocks nor contents. -/
lemma Touches.stamp (hc : c.Consistent) :
    Touches i c (c.setInode i ((c.inodes i).stamp size mtime)) where
  consistent := hc.congr rfl rfl rfl rfl rfl (fun _ _ => rfl)
    (fun j _ => c.node_stamp i size mtime j) fun j p _ => c.slot_stamp i size mtime j p
  dataStart_eq := rfl
  totalBlocks_eq := rfl
  totalInodes_eq := rfl
  freeInodes_eq := rfl
  inodes_eq _ hj := c.setInode_inodes_of_ne hj _
  type_eq := (c.node_stamp i size mtime i).1
  slot_other j p _ _ := c.slot_stamp i size mtime j p
  slot_kept p _ := c.slot_stamp i size mtime i p
  byteAt_other j k _ _ := c.byteAt_stamp i size mtime j k

end Stamp

/-! ## `wfs_write` -/

/-- The end of `wfs_write` installs the copy of the inode with its new size. -/
lemma writeFinish_spec (h : Mapping m ino) (off len done : ℕ) (stop : Option Errno) :
    ∃ v' mtime, writeFinish m ino off len done stop =
        (if done = 0 ∧ 0 < len then .error (stop.getD .ENOSPC) else .ok done, v') ∧
      v'.frame = m.vol.frame ∧
      v'.view = (m.view ino).setInode ino
        (m.inode.stamp (max m.inode.size ((off + done) % 4294967296)) mtime) := by
  have hvalid : m.vol.view.Valid ino := h.live.1
  have hlt := max_lt h.fits.size_lt (mod_lt (off + done) (show 0 < 4294967296 by omega))
  have htime : rtcEpoch m.vol < 4294967296 := mod_lt _ (by omega)
  have hsize : (if m.inode.size < (off + done) % 4294967296
      then { m.inode with size := (off + done) % 4294967296 } else m.inode) =
      m.inode.stamp (max m.inode.size ((off + done) % 4294967296)) m.inode.mtime := by
    split
    next hgrow =>
      rw [max_eq_right hgrow.le]
      rfl
    next hgrow =>
      rw [max_eq_left (not_lt.mp hgrow)]
      rfl
  generalize max m.inode.size ((off + done) % 4294967296) = size at hsize hlt ⊢
  obtain ⟨mtime, hmtime, hn⟩ : ∃ mtime, mtime < 4294967296 ∧
      (if 0 < done then { m.inode.stamp size m.inode.mtime with mtime := rtcEpoch m.vol }
        else m.inode.stamp size m.inode.mtime) = m.inode.stamp size mtime := by
    split_ifs
    · exact ⟨rtcEpoch m.vol, htime, rfl⟩
    exact ⟨m.inode.mtime, h.fits.mtime_lt, rfl⟩
  have hfits : (m.inode.stamp size mtime).Fits :=
    { h.fits with size_lt := hlt, mtime_lt := hmtime }
  unfold writeFinish
  dsimp only
  rw [hsize, hn]
  by_cases hwrite : m.dirty = true ∨ m.inode.size < (off + done) % 4294967296 ∨ 0 < done
  · obtain ⟨v', hw, hview, hframe⟩ := writeInode_spec h.healthy hvalid hfits
    refine ⟨v', mtime, ?_, hframe, ?_⟩
    · rw [if_pos hwrite, hw]
      split <;> rfl
    · rw [hview, MapState.view, setInode_setInode]
  · -- nothing changed: the inode on disk is the copy, and it is not written
    obtain ⟨hclean, hgrow, hd⟩ := (not_or.trans (and_congr_right fun _ => not_or)).mp hwrite
    rw [if_neg hgrow] at hsize
    rw [if_neg hd, ← hsize] at hn
    refine ⟨m.vol, mtime, ?_, rfl, ?_⟩
    · rw [if_neg hwrite]
      split <;> rfl
    · rw [MapState.view, setInode_setInode, ← hn, h.clean (by simpa using hclean), setInode_inodes]

/-- What `wfs_write` does when the range fits a file: it stores the first `done` bytes. -/
structure Written (c c' : View) (ino off : ℕ) (buf : Buf) (len : ℕ) (r : Except Errno ℕ)
    (done : ℕ) : Prop where
  /-- No more than asked for. -/
  le : done ≤ len
  /-- The file grows to the end of the bytes, as the 32-bit sum gives it. -/
  size_eq : (c'.inodes ino).size = max (c.inodes ino).size ((off + done) % 4294967296)
  /-- If any byte was stored, or none was asked for, the call returns how many. -/
  ok : ¬ (done = 0 ∧ 0 < len) → r = .ok done
  /-- Otherwise it fails. -/
  error : done = 0 → 0 < len → ∃ e, r = .error e
  /-- A short write means that the next block could not be had. -/
  short : done < len → Slot.ofIndex ((off + done) % 4294967296 / 1024) = none ∨
    ∃ p, Slot.ofIndex ((off + done) % 4294967296 / 1024) = some p ∧ c'.slot ino p = 0 ∧ c'.Full
  /-- The bytes are in the file. -/
  stored : off + len ≤ 4294967296 → Stored ino off buf c c' 0 done
  /-- A byte is stored exactly if the first block can be had. -/
  started : 0 < len → Started ino (off % 4294967296 / 1024) c c' (0 < done)
  /-- Only slots on the way to the range may have been filled. -/
  confined : Confined ino off 0 len c c'

/-- The state the calls map blocks in: the inode as it stands on disk. -/
def readState (v : Volume) (ino : ℕ) : MapState :=
  { vol := v, inode := v.view.inodes ino, dirty := false }

lemma readState_view (v : Volume) (ino : ℕ) : (readState v ino).view ino = v.view :=
  v.view.setInode_inodes ino

section

variable {v : Volume} (hv : Healthy v) (hc : v.view.Consistent) (hi : v.view.Live ino)

include hv hc hi

lemma readState_mapping : Mapping (readState v ino) ino := by
  refine ⟨hv, ?_, ?_, v.view_inodes_fits ino, fun _ => rfl⟩ <;> rw [readState_view]
  · exact hc
  · exact hi

/-- `wfs_write` refuses a range past the largest file, or stores a part of the buffer. -/
theorem writeFile_spec (off : ℕ) (buf : Buf) (len : ℕ) :
    ∃ r v', writeFile v ino off buf len = (r, v') ∧ v'.frame = v.frame ∧
      Touches ino v.view v'.view ∧
      ((r = .error .EFBIG ∧ v' = v ∧ maxFileSize < (off + len) % 4294967296) ∨
        ((off + len) % 4294967296 ≤ maxFileSize ∧
          ∃ done, Written v.view v'.view ino off buf len r done)) := by
  by_cases hbig : maxFileSize < (off + len) % 4294967296
  · rw [writeFile, readInode_ok hv hi.1]
    dsimp only
    rw [if_pos hbig]
    exact ⟨_, v, rfl, rfl, .refl hc, .inl ⟨rfl, rfl, hbig⟩⟩
  have hm0 := readState_view v ino
  have h₀ := readState_mapping hv hc hi
  obtain ⟨e, m, done, hloop, hw, -, hle, hend, hstored, hstarted, hconf⟩ :=
    writeLoop_spec off buf len len h₀ (zero_le len) (by omega)
  rw [hm0] at hstored hstarted hconf
  have hself : (m.view ino).inodes ino = m.inode := setInode_inodes_self ..
  -- the two ways the loop ends are finished alike
  obtain ⟨stop, hstop⟩ : ∃ stop, writeFile v ino off buf len =
      writeFinish m ino off len done stop := by
    rw [writeFile, readInode_ok hv hi.1]
    dsimp only
    rw [readState] at hloop
    rw [if_neg hbig, hloop]
    cases e with
    | finished => exact ⟨none, rfl⟩
    | stopped e => exact ⟨some e, rfl⟩
    | failed => exact hend.elim
  rw [hstop]
  obtain ⟨v', mtime, heq, hframe, hview⟩ := writeFinish_spec hw.kept off len done stop
  have hview' : v'.view = (m.view ino).setInode ino (((m.view ino).inodes ino).stamp
      (max m.inode.size ((off + done) % 4294967296)) mtime) := by
    rw [hview, hself]
  have htouch : Touches ino v.view v'.view := by
    rw [hview', ← hm0]
    exact hw.touches.trans (.stamp _ _ _ hw.kept.consistent)
  refine ⟨_, v', heq, hframe.trans hw.frame_eq, htouch,
    .inr ⟨not_lt.mp hbig, done, hle, ?_, fun hok => if_neg hok,
      fun h0 hlen => ⟨_, if_pos ⟨h0, hlen⟩⟩, ?_, ?_, fun hlen => ?_, fun q hq => ?_⟩⟩
  · rw [hview, setInode_inodes_self, show m.inode.size = (v.view.inodes ino).size from
      hw.size_eq]
    rfl
  · intro hshort
    cases e with
    | finished =>
      have : done = len := hend
      omega
    | failed => exact hend.elim
    | stopped e =>
      rcases hend.2 with ⟨-, ⟨p, hp, hp0⟩, hfull⟩ | ⟨-, hnone⟩
      · refine .inr ⟨p, hp, ?_, ?_⟩
        · rw [hview', View.slot_stamp]
          exact hp0
        · rw [hview']
          exact hfull
      · exact .inl hnone
  · intro hwrap
    refine ⟨fun k => ?_, fun k hk hk' => ?_⟩
    · rw [hview', View.byteAt_stamp]
      exact (hstored hwrap).bytes k
    · obtain ⟨p, hp, hp0⟩ := (hstored hwrap).blocks k hk hk'
      exact ⟨p, hp, by rwa [hview', View.slot_stamp]⟩
  · refine ⟨(hstarted hlen).iff, fun hnot q hq => ?_⟩
    rw [hview', View.slot_stamp]
    exact (hstarted hlen).slot_eq hnot q hq
  · rw [hview', View.slot_stamp]
    exact hconf q hq

end

/-! ## `wfs_read` -/

/-- The contents of an inode as one buffer. -/
def View.contents (c : View) (i : ℕ) : Buf := c.byteAt i

section Read

variable {v : Volume} (hv : Healthy v) (hc : v.view.Consistent) {ino : ℕ} (hi : v.view.Live ino)

include hv hc hi

lemma bmap_readState (index : ℕ) :
    (bmap (readState v ino) index false).1 =
      match Slot.ofIndex index with
      | none => .error .EFBIG
      | some p => .ok (v.view.slot ino p) := by
  rw [bmap_lookup (m := readState v ino) hv (fun p => hc.inData ino p hi)]
  rfl

variable {len index run : ℕ}

omit hv hc hi in
/-- The bytes of one block, or of the hole in its place. -/
lemma contents_slice_block (v : Volume) (ino : ℕ) {n inpos : ℕ} (hp : Slot.ofIndex index = some p)
    (hn : inpos + n ≤ 1024) :
    (v.view.contents ino).slice (1024 * index + inpos) n =
      (if v.view.slot ino p = 0 then Buf.zero else v.view.data (v.view.slot ino p)).slice
        inpos n := by
  apply Buf.slice_congr
  intro t ht
  have hdiv : (1024 * index + inpos + t) / 1024 = index := by omega
  have hmod : (1024 * index + inpos + t) % 1024 = inpos + t := by omega
  rw [View.contents, View.byteAt, hdiv, hp, hmod]
  dsimp only
  split <;> rfl

/-- The blocks the inner loop gathers stand one after another on the disk. -/
lemma runLength_spec (index block left fuel : ℕ) (hrun : 1 ≤ run)
    (hsofar : ∀ t < run, ∃ p, Slot.ofIndex (index + t) = some p ∧ v.view.slot ino p = block + t)
    (hleft : run * 1024 ≤ left) :
    let n := runLength (readState v ino) index block left fuel run
    1 ≤ n ∧ n * 1024 ≤ left ∧
      ∀ t < n, ∃ p, Slot.ofIndex (index + t) = some p ∧ v.view.slot ino p = block + t := by
  induction fuel generalizing run with
  | zero => exact ⟨hrun, hleft, hsofar⟩
  | succ fuel ih =>
    rw [runLength]
    split
    next hgo =>
      rw [bmap_readState hv hc hi]
      cases hof : Slot.ofIndex (index + run) with
      | none => exact ⟨hrun, hleft, hsofar⟩
      | some p =>
        dsimp only
        split
        next hnext =>
          refine ih (by omega) ?_ hgo.2
          intro t ht
          by_cases htr : t = run
          · subst htr
            exact ⟨p, hof, hnext⟩
          · exact hsofar t (by omega)
        next => exact ⟨hrun, hleft, hsofar⟩
    next => exact ⟨hrun, hleft, hsofar⟩

/-- One transfer of a run of blocks delivers the contents they hold. -/
lemma blocksRead_spec {block : ℕ} (hblock : block ≠ 0)
    (hrun : ∀ t < run, ∃ p, Slot.ofIndex (index + t) = some p ∧ v.view.slot ino p = block + t) :
    blocksRead v block run = some ((v.view.contents ino).slice (1024 * index) (run * 1024)) := by
  rw [blocksRead, if_neg (by simp [hv.calm])]
  congr 1
  induction run with
  | zero => rfl
  | succ run ih =>
    obtain ⟨p, hp, hslot⟩ := hrun run (by omega)
    have hne : v.view.slot ino p ≠ 0 := by omega
    have hlast := contents_slice_block v ino hp (show 0 + 1024 ≤ 1024 by omega)
    rw [if_neg hne, Volume.view_data_of_inData (hc.inData ino p hi hne), hslot] at hlast
    rw [List.range_succ, List.flatMap_append, ih (fun t ht => hrun t (by omega)),
      add_mul run 1 1024, one_mul, Buf.slice_add, show 1024 * index + run * 1024 = 1024 * (index + run) + 0 by omega, hlast]
    simp

/-- How many bytes a turn of the read loop delivers at `pos`, with `left` bytes to go. -/
def readStride (v : Volume) (ino : ℕ) (p : Slot) (pos left : ℕ) : ℕ :=
  let run := if pos % 1024 = 0 ∧ v.view.slot ino p ≠ 0 ∧ 1024 ≤ left
    then runLength (readState v ino) (pos / 1024) (v.view.slot ino p) left readRunBlocks 1 else 1
  if 1 < run then run * 1024 else min (1024 - pos % 1024) left

/-- A turn of the read loop delivers some of the contents. -/
lemma readLoop_turn {pos : ℕ} (fuel : ℕ) (hpos : (off + done) % 4294967296 = pos)
    (hleft : ¬ len ≤ done) (hp : Slot.ofIndex (pos / 1024) = some p) :
    let n := readStride v ino p pos (len - done)
    0 < n ∧ n ≤ len - done ∧ readLoop (readState v ino) off len (fuel + 1) done =
      ((v.view.contents ino).slice pos n ++ ·) <$>
        readLoop (readState v ino) off len fuel (done + n) := by
  have hchunk := contents_slice_block v ino hp
    (show pos % 1024 + min (1024 - pos % 1024) (len - done) ≤ 1024 by omega)
  rw [div_add_mod] at hchunk
  rw [readLoop, if_neg hleft]
  dsimp only
  rw [hpos, bmap_readState hv hc hi, hp, readStride]
  dsimp only
  generalize hrun : (if pos % 1024 = 0 ∧ v.view.slot ino p ≠ 0 ∧ 1024 ≤ len - done
    then runLength (readState v ino) (pos / 1024) (v.view.slot ino p) (len - done)
      readRunBlocks 1 else 1) = run
  by_cases hmany : 1 < run
  · -- several blocks in one transfer
    simp only [if_pos hmany]
    split at hrun
    next hcond =>
      obtain ⟨hzero, hne, hwhole⟩ := hcond
      obtain ⟨-, hle, hall⟩ := runLength_spec hv hc hi (pos / 1024) (v.view.slot ino p) (len - done)
        readRunBlocks le_rfl
        (fun t ht => ⟨p, by rw [show t = 0 by omega, add_zero, hp], by omega⟩) (by omega)
      rw [hrun] at hle hall
      have hread := blocksRead_spec hv hc hi hne hall
      rw [show 1024 * (pos / 1024) = pos by omega] at hread
      rw [show (readState v ino).vol = v from rfl, hread]
      exact ⟨by omega, hle, rfl⟩
    next => omega
  · simp only [if_neg hmany]
    refine ⟨by omega, by omega, ?_⟩
    rw [hchunk]
    by_cases hzero : v.view.slot ino p = 0
    · rw [if_pos hzero, if_pos hzero]
      exact congrArg (fun bytes => (bytes ++ ·) <$> _) (Buf.slice_congr fun _ _ => rfl)
    · rw [if_neg hzero, if_neg hzero, show (readState v ino).vol = v from rfl,
        blockRead_data hv (hc.inData ino p hi hzero)]

/-- The read loop delivers the contents from `off + done` on. -/
lemma readLoop_spec (hlen : off + len ≤ maxFileSize) (fuel : ℕ) (hdone : done ≤ len)
    (hfuel : len ≤ done + fuel) :
    readLoop (readState v ino) off len fuel done =
      .ok ((v.view.contents ino).slice (off + done) (len - done)) := by
  have hmax : maxFileSize = maxFileBlocks * 1024 := rfl
  have hblocks : maxFileBlocks = 65802 := rfl
  induction fuel generalizing done with
  | zero => rw [readLoop, show len - done = 0 by omega, Buf.slice_zero]
  | succ fuel ih =>
    by_cases hle : len ≤ done
    · rw [readLoop, if_pos hle, show len - done = 0 by omega, Buf.slice_zero]
    obtain ⟨p, hp⟩ := Option.isSome_iff_exists.mp
      (Slot.ofIndex_isSome_iff.mpr (show (off + done) / 1024 < maxFileBlocks by omega))
    obtain ⟨hn, hnle, hturn⟩ := readLoop_turn hv hc hi fuel
      (mod_eq_of_lt (show off + done < 4294967296 by omega)) hle hp
    rw [hturn, ih (by omega) (by omega)]
    -- what is delivered now, then the rest
    change Except.ok _ = _
    generalize readStride v ino p (off + done) (len - done) = n at *
    rw [show len - done = n + (len - (done + n)) by omega, Buf.slice_add, add_assoc]

/-- `wfs_read` returns the contents of the range, as far as the file reaches. -/
theorem readFile_spec (hsize : (v.view.inodes ino).size ≤ maxFileSize)
    (hwrap : off + len < 4294967296) :
    readFile v ino off len =
      .ok ((v.view.contents ino).slice off (min len ((v.view.inodes ino).size - off))) := by
  unfold readFile
  rw [readInode_ok hv hi.1]
  dsimp only
  split
  next hend => rw [show min len ((v.view.inodes ino).size - off) = 0 by omega, Buf.slice_zero]
  next hend =>
    rw [mod_eq_of_lt hwrap]
    have hlen : (if (v.view.inodes ino).size < off + len then (v.view.inodes ino).size - off
        else len) = min len ((v.view.inodes ino).size - off) := by
      split <;> omega
    rw [hlen]
    exact readLoop_spec hv hc hi (by omega) _ (zero_le _) (by omega)

end Read

end Wos.Wfs
