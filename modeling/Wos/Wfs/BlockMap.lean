import Wos.Wfs.Blocks

/-!
# The block map of an inode

What `fill_slot`, `table_slot` and `bmap` do to a consistent volume. The driver changes a copy of
the inode in memory and writes it back at the end of the operation, so between the two the volume
is consistent only together with that copy: `MapState.view` is the view with the copy in the place
of the inode on disk.

Without allocation `bmap` reads a slot (`bmap_lookup`). With allocation it fills slots on the way
until it has a block or the volume is full (`bmap_alloc`).

## Main definitions

* `MapState.view`, `Mapping`: the volume with the copy installed, and the invariant of `wfs_write`;
* `Maps`: what a step of the block map changes.

## Main results

* `bmap_lookup`, `bmap_alloc`.
-/

namespace Wos.Wfs

open View Slot

/-! ## Setting an inode -/

variable {index i b : ℕ} {p q : Slot} {m' : MapState} {n : Inode} {c : View}

namespace View

@[simp]
lemma setInode_inodes_self (c : View) (i : ℕ) (n : Inode) : (c.setInode i n).inodes i = n :=
  Function.update_self ..

lemma setInode_inodes_of_ne (c : View) {j : ℕ} (h : j ≠ i) (n : Inode) :
    (c.setInode i n).inodes j = c.inodes j := Function.update_of_ne h _ _

@[simp]
lemma setInode_setInode (c : View) (i : ℕ) (n n' : Inode) :
    (c.setInode i n).setInode i n' = c.setInode i n' := by
  ext1 <;> first | rfl | exact Function.update_idem _ _ _

@[simp]
lemma setInode_inodes (c : View) (i : ℕ) : c.setInode i (c.inodes i) = c := by
  ext1 <;> first | rfl | exact Function.update_eq_self _ _

/-- The slots of a set inode are read from that inode. -/
lemma slot_setInode_self (c : View) (i : ℕ) (n : Inode) (p : Slot) :
    (c.setInode i n).slot i p = c.slotIn n p := by
  rw [slot, setInode_inodes_self]
  cases p <;> rfl

end View

lemma PtrField.slotIn_slot (c : View) (n : Inode) (f : PtrField) :
    c.slotIn n f.slot = n.ptr f := by
  cases f <;> rfl

lemma Inode.ptr_setPtr (n : Inode) (b : ℕ) (f : PtrField) : (n.setPtr b f).ptr f = b := by
  cases f with
  | direct i => exact Function.update_self ..
  | indirect => rfl
  | doubleIndirect => rfl

lemma Inode.Fits.setBlocks (h : n.Fits) : { n with blocks := inc32 n.blocks }.Fits :=
  { h with blocks_lt := inc32_lt h.blocks_lt }

lemma Inode.Fits.setPtr (h : n.Fits) (hb : b < 4294967296) (f : PtrField) :
    (n.setPtr b f).Fits := by
  cases f with
  | direct i =>
    refine { h with direct_lt := fun k => ?_ }
    simp only [Inode.setPtr, Function.update_apply]
    split
    · exact hb
    · exact h.direct_lt k
  | indirect => exact { h with indirect_lt := hb }
  | doubleIndirect => exact { h with doubleIndirect_lt := hb }

/-! ## The block map without allocation -/

section Lookup

variable {m : MapState} (hv : Healthy m.vol)
  (hdata : ∀ p, m.vol.view.slotIn m.inode p ≠ 0 → m.vol.view.InData (m.vol.view.slotIn m.inode p))

include hv hdata

lemma tableSlot_lookup (hp : p.parent = some q) (hq : m.vol.view.slotIn m.inode q ≠ 0) :
    tableSlot m (m.vol.view.slotIn m.inode q) p.index false =
      (.ok (m.vol.view.slotIn m.inode p), m) := by
  have hentry : m.vol.view.slotIn m.inode p =
      (m.vol.view.data (m.vol.view.slotIn m.inode q)).word p.index := by
    rw [slotIn_parent _ _ hp, View.entry, if_neg hq]
  rw [tableSlot, blockRead_data hv (hdata q hq), hentry]
  dsimp only
  split
  next => rfl
  next hzero =>
    rw [if_pos rfl]
    rw [ne_eq, not_not] at hzero
    rw [hzero]

/-- Without allocation, `bmap` reads the slot of the block and changes nothing. -/
theorem bmap_lookup (index : ℕ) :
    bmap m index false =
      (match Slot.ofIndex index with
        | none => .error .EFBIG
        | some p => .ok (m.vol.view.slotIn m.inode p), m) := by
  have hfill : ∀ f, fillSlot m f false = (.ok (), m) := fun f => if_pos (.inr rfl)
  unfold bmap Slot.ofIndex
  by_cases h10 : index < 10
  · simp only [dif_pos h10, hfill]
    rfl
  by_cases h256 : index - 10 < 256
  · simp only [dif_neg h10, dif_pos h256, if_pos h256, bmapSingle, hfill]
    by_cases hz : m.inode.indirect = 0
    · rw [if_pos hz, View.slotIn, View.entry, if_pos hz]
    · rw [if_neg hz]
      exact tableSlot_lookup hv hdata (p := .single ⟨index - 10, h256⟩) rfl hz
  · by_cases hbig : index - 10 - 256 < 256 * 256
    · simp only [dif_neg h10, if_neg h256, dif_neg h256, dif_pos hbig,
        if_neg (Nat.not_le.mpr hbig), bmapDouble, hfill]
      let k : Fin 256 := ⟨(index - 10 - 256) / 256, by omega⟩
      let l : Fin 256 := ⟨(index - 10 - 256) % 256, by omega⟩
      by_cases hz : m.inode.doubleIndirect = 0
      · rw [if_pos hz, slotIn_parent _ _ (p := .leaf k l) rfl,
          slotIn_parent _ _ (p := .middle k) rfl]
        simp [View.slotIn, View.entry, hz]
      have hmid := tableSlot_lookup hv hdata (p := .middle k) rfl hz
      rw [if_neg hz, show tableSlot m m.inode.doubleIndirect ((index - 10 - 256) / 256) false =
        (.ok (m.vol.view.slotIn m.inode (.middle k)), m) from hmid]
      dsimp only
      by_cases hz' : m.vol.view.slotIn m.inode (.middle k) = 0
      · rw [if_pos hz', slotIn_parent _ _ (p := .leaf k l) rfl, View.entry, if_pos hz']
      · rw [if_neg hz']
        exact tableSlot_lookup hv hdata (p := .leaf k l) rfl hz'
    · simp only [dif_neg h10, if_neg h256, dif_neg h256, dif_neg hbig, if_pos (Nat.not_lt.mp hbig)]

end Lookup

/-! ## The block map with allocation -/

/-- The view with the copy of inode `ino` in the place of the inode on disk. -/
def MapState.view (m : MapState) (ino : ℕ) : View := m.vol.view.setInode ino m.inode

lemma MapState.slot_field (m : MapState) (ino : ℕ) (f : PtrField) :
    (m.view ino).slot ino f.slot = m.inode.ptr f := by
  rw [MapState.view, slot_setInode_self, PtrField.slotIn_slot]

/-- The invariant of a write in progress to inode `ino`. -/
structure Mapping (m : MapState) (ino : ℕ) : Prop where
  healthy : Healthy m.vol
  /-- The volume with the copy of the inode written back is consistent. -/
  consistent : (m.view ino).Consistent
  live : (m.view ino).Live ino
  /-- The copy fits its C types. -/
  fits : m.inode.Fits
  /-- While the copy is not marked as changed, it is what stands on disk. -/
  clean : m.dirty = false → m.inode = m.vol.view.inodes ino

/-- What a step of the block map of inode `ino` changes: it fills slots out of a list. -/
structure Maps (ino : ℕ) (on : List Slot) (m m' : MapState) : Prop where
  kept : Mapping m' ino
  /-- The superblock but for its counts, and the surroundings, stay. -/
  frame_eq : m'.vol.frame = m.vol.frame
  /-- The inodes on disk stay: only the copy changes. -/
  inodes_eq : m'.vol.view.inodes = m.vol.view.inodes
  /-- The slots that were filled are in the list. -/
  grows : Grows ino on (m.view ino) (m'.view ino)
  /-- A copy that was marked as changed stays marked. -/
  dirty : m.dirty = true → m'.dirty = true

/-- No block of the data area is free. -/
def View.Full (c : View) : Prop := ∀ b, c.InData b → c.used b = true

/-- On a full volume the count of free blocks is zero. -/
lemma View.Consistent.freeBlocks_eq_zero (hc : c.Consistent) (hfull : c.Full) :
    c.freeBlocks = 0 := by
  rw [hc.freeBlocks_eq, Finset.card_eq_zero, Finset.filter_eq_empty_iff]
  intro b hb
  rw [hfull b (Finset.mem_Ico.mp hb)]
  decide

/-- There is room for block `index` of the inode: the block is there, or the free blocks cover
what is missing on the way to it. -/
def View.CanMap (c : View) (i index : ℕ) : Prop :=
  ∃ p, Slot.ofIndex index = some p ∧ c.missing i p.path ≤ c.freeBlocks

/-- Without room for a block of the file, the block is not there. -/
lemma View.slot_eq_zero_of_not_canMap (hlt : index < maxFileBlocks)
    (h : ¬ c.CanMap i index) : ∃ p, Slot.ofIndex index = some p ∧ c.slot i p = 0 := by
  obtain ⟨p, hp⟩ := Option.isSome_iff_exists.mp (ofIndex_isSome_iff.mpr hlt)
  refine ⟨p, hp, Decidable.byContradiction fun hp0 => h ⟨p, hp, ?_⟩⟩
  rw [missing_path_eq_zero_iff.mpr hp0]
  exact Nat.zero_le _

/-- What is found for a slot when blocks are allocated on the way: the block in it, or a full volume. -/
def SlotResult (ino : ℕ) (p : Slot) (m' : MapState) (r : Except Errno ℕ) : Prop :=
  (r = .ok ((m'.view ino).slot ino p) ∧ (m'.view ino).slot ino p ≠ 0) ∨
    (r = .error .ENOSPC ∧ (m'.view ino).slot ino p = 0 ∧ (m'.view ino).Full)

lemma Maps.refl {ino : ℕ} {on : List Slot} {m : MapState} (h : Mapping m ino) : Maps ino on m m :=
  ⟨h, rfl, rfl, .refl _, id⟩

lemma Maps.trans {ino : ℕ} {on : List Slot} {m m'' : MapState} (h : Maps ino on m m')
    (h' : Maps ino on m' m'') : Maps ino on m m'' :=
  ⟨h'.kept, h'.frame_eq.trans h.frame_eq, h'.inodes_eq.trans h.inodes_eq,
    h.grows.trans h'.grows, h'.dirty ∘ h.dirty⟩

section Alloc

variable {m : MapState} {ino : ℕ} (h : Mapping m ino) {on : List Slot}

include h

/-- A filled slot is a step of the block map. -/
lemma Mapping.maps_of_fills (hframe : m'.vol.frame = m.vol.frame)
    (hinodes : m'.vol.view.inodes = m.vol.view.inodes) (hdirty : m'.dirty = true)
    (hfits : m'.inode.Fits) (hf : Fills (m.view ino) (m'.view ino) ino p b) (hp : p ∈ on) :
    Maps ino on m m' := by
  refine ⟨⟨h.healthy.of_frame hframe, hf.consistent h.consistent, (hf.live_iff ino).mpr h.live,
    hfits, ?_⟩, hframe, hinodes, .step (.refl _) hf hp, fun _ => hdirty⟩
  intro hclean
  rw [hdirty] at hclean
  cases hclean

/-- `fill_slot` leaves a block in the field, or finds the volume full. -/
lemma fillSlot_alloc (f : PtrField) (hon : f.slot ∈ on) :
    ∃ r m', fillSlot m f true = (r, m') ∧ Maps ino on m m' ∧
      ((r = .ok () ∧ m'.inode.ptr f ≠ 0) ∨
        (r = .error .ENOSPC ∧ m'.inode.ptr f = 0 ∧ (m'.view ino).Full)) := by
  unfold fillSlot
  by_cases hptr : m.inode.ptr f = 0
  · rw [if_neg (by simp [hptr])]
    rcases blockAlloc_spec h.healthy with ⟨halloc, hfull⟩ | ⟨b, v', halloc, hb, hu, hview, hframe⟩
    · refine ⟨.error .ENOSPC, m, ?_, .refl h, .inr ⟨rfl, hptr, hfull⟩⟩
      rw [halloc]
      rfl
    have hf : Fills (m.view ino) ((m.view ino).fillField ino f b) ino f.slot b := by
      apply fills_field h.consistent h.live hb hu
      rw [MapState.view, setInode_inodes_self, hptr]
    have hb0 := hf.ne_zero h.consistent
    have hb32 : b < 4294967296 := hb.2.trans h.consistent.totalBlocks_lt
    let m' : MapState :=
      { vol := v'
        inode := { m.inode.setPtr b f with blocks := inc32 (m.inode.setPtr b f).blocks }
        dirty := true }
    have hm' : m'.view ino = (m.view ino).fillField ino f b := by
      have hino : m'.inode = { m.inode.setPtr b f with blocks := inc32 m.inode.blocks } := by
        cases f <;> rfl
      rw [MapState.view, hview, hino, View.fillField, MapState.view, setInode_inodes_self]
      exact ((m.vol.view.take b).setInode_setInode ino m.inode _).symm
    refine ⟨.ok (), m', ?_, ?_, .inl ⟨rfl, ?_⟩⟩
    · rw [halloc]
      exact if_neg hb0
    · refine h.maps_of_fills hframe ?_ rfl ((h.fits.setPtr hb32 f).setBlocks) (hm' ▸ hf) hon
      rw [hview]
      rfl
    · have hself := m.inode.ptr_setPtr b f
      cases f <;> exact fun hz => hb0 (hself.symm.trans hz)
  · rw [if_pos (Or.inl hptr)]
    exact ⟨.ok (), m, rfl, .refl h, .inl ⟨rfl, hptr⟩⟩

/-- `table_slot` returns the block in an entry of a pointer block, or finds the volume full. -/
lemma tableSlot_alloc (hp : p.parent = some q) {t : ℕ} (ht : (m.view ino).slot ino q = t)
    (ht0 : t ≠ 0) (hon : p ∈ on) :
    ∃ r m', tableSlot m t p.index true = (r, m') ∧ Maps ino on m m' ∧ SlotResult ino p m' r := by
  have htdata : m.vol.view.InData t := ht ▸ h.consistent.inData ino q h.live (ht ▸ ht0)
  have hentry : (m.view ino).slot ino p = (m.vol.view.data t).word p.index := by
    rw [slot_parent _ _ hp, ht, View.entry, if_neg ht0]
    rfl
  unfold tableSlot
  rw [blockRead_data h.healthy htdata]
  dsimp only
  by_cases hword : (m.vol.view.data t).word p.index = 0
  · rw [if_neg (by simp [hword]), if_neg (by decide)]
    rcases blockAlloc_spec h.healthy with ⟨halloc, hfull⟩ | ⟨b, v', halloc, hb, hu, hview, hframe⟩
    · refine ⟨.error .ENOSPC, m, ?_, .refl h, .inr ⟨rfl, hentry.trans hword, hfull⟩⟩
      rw [halloc]
      rfl
    have hf := fills_entry h.consistent h.live hb hu hp ht ht0 (hentry.trans hword)
    have hb0 := hf.ne_zero h.consistent
    have htdata' : v'.view.InData t := by
      rw [hview]
      exact htdata
    obtain ⟨v'', hw, hview', hframe'⟩ := blockWrite_data_spec (h.healthy.of_frame hframe)
      htdata' ((m.vol.view.data t).setWord p.index b)
    let m' : MapState :=
      { vol := v'', inode := { m.inode with blocks := inc32 m.inode.blocks }, dirty := true }
    have hm' : m'.view ino = (m.view ino).fillEntry ino t p.index b := by
      rw [MapState.view, hview', hview, View.fillEntry, MapState.view, setInode_inodes_self]
      exact (setInode_setInode ((m.vol.view.take b).setData t _) ino m.inode _).symm
    have hslot : (m'.view ino).slot ino p = b := by
      rw [hm', hf.slot_eq ino p h.live, if_pos ⟨rfl, rfl⟩]
    refine ⟨.ok b, m', ?_, ?_, Or.inl ⟨by rw [hslot], by rwa [hslot]⟩⟩
    · rw [halloc]
      rw [if_neg hb0, hw]
    · refine h.maps_of_fills (hframe'.trans hframe) ?_ rfl h.fits.setBlocks (hm' ▸ hf) hon
      rw [hview', hview]
      rfl
  · rw [if_pos hword]
    exact ⟨_, m, rfl, .refl h, Or.inl ⟨by rw [hentry], by rwa [hentry]⟩⟩

/-- What `bmap` reports when it allocates: the block in the slot, or why there is none. -/
def BmapResult (ino index : ℕ) (m' : MapState) : Except Errno ℕ → Prop
  | .ok b => ∃ p, Slot.ofIndex index = some p ∧ (m'.view ino).slot ino p = b ∧ b ≠ 0
  | .error e =>
    (e = .ENOSPC ∧ (∃ p, Slot.ofIndex index = some p ∧ (m'.view ino).slot ino p = 0) ∧
      (m'.view ino).Full) ∨ (e = .EFBIG ∧ Slot.ofIndex index = none)

omit h in
theorem SlotResult.bmap {r : Except Errno ℕ} (hr : SlotResult ino p m r)
    (hof : Slot.ofIndex index = some p) : BmapResult ino index m r := by
  rcases hr with ⟨rfl, hne⟩ | ⟨rfl, hzero, hfull⟩
  · exact ⟨p, hof, rfl, hne⟩
  · exact .inl ⟨rfl, ⟨p, hof, hzero⟩, hfull⟩

/-- Through the indirect block. -/
lemma bmapSingle_alloc (hlt : index < 256) :
    ∃ r m', bmapSingle m index true = (r, m') ∧
      Maps ino (Slot.single ⟨index, hlt⟩).path m m' ∧
      SlotResult ino (.single ⟨index, hlt⟩) m' r := by
  obtain ⟨r1, m1, hfill, hmaps1, hr1⟩ :=
    fillSlot_alloc h .indirect (parent_mem_path (p := .single ⟨index, hlt⟩) rfl)
  have hslot := m1.slot_field ino .indirect
  unfold bmapSingle
  rw [hfill]
  rcases hr1 with ⟨rfl, hptr⟩ | ⟨rfl, hptr, hfull⟩
  · rw [Inode.ptr] at hptr
    obtain ⟨r, m', htab, hmaps, hr⟩ :=
      tableSlot_alloc hmaps1.kept (p := .single ⟨index, hlt⟩) rfl hslot hptr (self_mem_path _)
    refine ⟨r, m', ?_, hmaps1.trans hmaps, hr⟩
    dsimp only
    rw [if_neg hptr]
    exact htab
  · exact ⟨_, m1, rfl, hmaps1, .inr ⟨rfl, slot_eq_zero_of_parent rfl (hslot.trans hptr), hfull⟩⟩

/-- Through the double indirect block. -/
lemma bmapDouble_alloc {k l : Fin 256} (hk : index / 256 = k) (hl : index % 256 = l) :
    ∃ r m', bmapDouble m index true = (r, m') ∧
      Maps ino (Slot.leaf k l).path m m' ∧ SlotResult ino (.leaf k l) m' r := by
  obtain ⟨r1, m1, hfill, hmaps1, hr1⟩ := fillSlot_alloc h .doubleIndirect
    (show PtrField.slot .doubleIndirect ∈ (Slot.leaf k l).path from List.mem_cons_self ..)
  have hslot := m1.slot_field ino .doubleIndirect
  rw [bmapDouble, hk, hl, hfill]
  rcases hr1 with ⟨rfl, hptr⟩ | ⟨rfl, hptr, hfull⟩
  · rw [Inode.ptr] at hptr
    obtain ⟨r2, m2, hmid, hmaps2, hr2⟩ :=
      tableSlot_alloc hmaps1.kept (p := .middle k) rfl hslot hptr
        (parent_mem_path (p := .leaf k l) rfl)
    dsimp only
    rw [if_neg hptr, show tableSlot m1 m1.inode.doubleIndirect k true = (r2, m2) from hmid]
    rcases hr2 with ⟨rfl, hmid0⟩ | ⟨rfl, hmid0, hfull⟩
    · -- the middle block is there, and the leaf is one of its entries
      obtain ⟨r, m', htab, hmaps, hr⟩ := tableSlot_alloc hmaps2.kept (p := .leaf k l) rfl rfl
        hmid0 (self_mem_path _)
      refine ⟨r, m', ?_, (hmaps1.trans hmaps2).trans hmaps, hr⟩
      dsimp only
      rw [if_neg hmid0]
      exact htab
    · exact ⟨_, m2, rfl, hmaps1.trans hmaps2, .inr ⟨rfl, slot_eq_zero_of_parent rfl hmid0, hfull⟩⟩
  · have hmid0 : (m1.view ino).slot ino (.middle k) = 0 :=
      slot_eq_zero_of_parent rfl (hslot.trans hptr)
    exact ⟨_, m1, rfl, hmaps1, .inr ⟨rfl, slot_eq_zero_of_parent rfl hmid0, hfull⟩⟩

/-- With allocation, `bmap` fills the slots on the way to a block until it has the block or the
volume is full. -/
theorem bmap_alloc (index : ℕ) :
    ∃ r m', bmap m index true = (r, m') ∧ Maps ino (Slot.pathOf index) m m' ∧
      BmapResult ino index m' r := by
  unfold bmap
  by_cases h10 : index < 10
  · rw [dif_pos h10]
    have hof : Slot.ofIndex index = some (.direct ⟨index, h10⟩) := by
      rw [Slot.ofIndex, dif_pos h10]
    rw [pathOf_eq hof]
    obtain ⟨r, m', hfill, hmaps, hr⟩ :=
      fillSlot_alloc h (.direct ⟨index, h10⟩) (self_mem_path (.direct ⟨index, h10⟩))
    rw [hfill]
    have hslot := m'.slot_field ino (.direct ⟨index, h10⟩)
    rcases hr with ⟨rfl, hptr⟩ | ⟨rfl, hptr, hfull⟩
    · exact ⟨_, m', rfl, hmaps, _, hof, hslot, hptr⟩
    · exact ⟨_, m', rfl, hmaps, .inl ⟨rfl, ⟨_, hof, hslot.trans hptr⟩, hfull⟩⟩
  · rw [dif_neg h10]
    by_cases h256 : index - 10 < 256
    · rw [if_pos h256]
      obtain ⟨r, m', heq, hmaps, hr⟩ := bmapSingle_alloc h h256
      have hof : Slot.ofIndex index = some (.single ⟨index - 10, h256⟩) := by
        rw [Slot.ofIndex, dif_neg h10, dif_pos h256]
      rw [pathOf_eq hof]
      exact ⟨r, m', heq, hmaps, hr.bmap hof⟩
    · rw [if_neg h256]
      by_cases hbig : 256 * 256 ≤ index - 10 - 256
      · rw [if_pos hbig]
        refine ⟨_, m, rfl, .refl h, .inr ⟨rfl, ?_⟩⟩
        rw [Slot.ofIndex, dif_neg h10, dif_neg h256, dif_neg (Nat.not_lt.mpr hbig)]
      rw [if_neg hbig]
      obtain ⟨r, m', heq, hmaps, hr⟩ :=
        bmapDouble_alloc h (k := ⟨(index - 10 - 256) / 256, by omega⟩)
          (l := ⟨(index - 10 - 256) % 256, by omega⟩) rfl rfl
      have hof : Slot.ofIndex index = some (.leaf ⟨(index - 10 - 256) / 256, by omega⟩
          ⟨(index - 10 - 256) % 256, by omega⟩) := by
        rw [Slot.ofIndex, dif_neg h10, dif_neg h256, dif_pos (Nat.not_le.mp hbig)]
      rw [pathOf_eq hof]
      exact ⟨r, m', heq, hmaps, hr.bmap hof⟩

/-- `bmap` has its block exactly when the free blocks cover what is missing on the way to it. -/
lemma bmap_ok_iff {r : Except Errno ℕ} (hmaps : Maps ino (Slot.pathOf index) m m')
    (hr : BmapResult ino index m' r) :
    (∃ b, r = .ok b) ↔ (m.view ino).CanMap ino index := by
  have hcost : ∀ p, Slot.ofIndex index = some p →
      (m'.view ino).freeBlocks + (m.view ino).missing ino p.path =
        (m.view ino).freeBlocks + (m'.view ino).missing ino p.path := by
    intro p hp
    have hgrows := hmaps.grows
    rw [pathOf_eq hp] at hgrows
    exact hgrows.freeBlocks_add_missing h.consistent p.path_nodup
  cases r with
  | ok b =>
    obtain ⟨p, hp, rfl, hp0⟩ := hr
    have hnone := missing_path_eq_zero_iff.mpr hp0
    have hcost := hcost p hp
    exact iff_of_true ⟨_, rfl⟩ ⟨p, hp, by omega⟩
  | error e =>
    refine iff_of_false (fun ⟨_, hok⟩ => by cases hok) ?_
    rintro ⟨p, hp, hle⟩
    rcases hr with ⟨-, ⟨q, hq, hq0⟩, hfull⟩ | ⟨-, hnone⟩
    · obtain rfl := Option.mem_unique hp hq
      have hsome : (m'.view ino).missing ino p.path ≠ 0 :=
        fun hz => missing_path_eq_zero_iff.mp hz hq0
      have hfree := hmaps.kept.consistent.freeBlocks_eq_zero hfull
      have hcost := hcost p hp
      omega
    · rw [hp] at hnone
      cases hnone

end Alloc

end Wos.Wfs
