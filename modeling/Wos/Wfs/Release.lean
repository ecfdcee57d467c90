import Wos.Wfs.Contents

/-!
# Releasing blocks and claiming inodes

`wfs_truncate` walks the pointers of an inode and frees every block it meets, then writes the inode
back empty. `inode_alloc` and `inode_free` write an inode that holds no block. All three leave a
volume in which one inode is bare, its former blocks are free, and nothing else has changed:
`View.Consistent.strip` says once that such a volume is consistent.

## Main definitions

* `View.drop`, `View.refs`: freeing one block, and the blocks a truncation frees;
* `Inode.Bare`, `Emptied`: an inode without blocks, and the effect of `wfs_truncate`.

## Main results

* `View.Consistent.strip`: allocation consistency after an inode is laid bare;
* `truncate_spec`: the effect of `wfs_truncate`;
* `View.Consistent.allocInode`, `View.Consistent.freeInode`.
-/

namespace Wos.Wfs

open List View
open Finset hiding mem_cons mem_map mem_range mem_singleton

/-! ## An inode without blocks -/

/-- The inode holds no block and counts none. -/
structure Inode.Bare (n : Inode) : Prop where
  direct : ∀ i, n.direct i = 0
  indirect : n.indirect = 0
  doubleIndirect : n.doubleIndirect = 0
  blocks : n.blocks = 0

variable {n : Inode}

lemma View.slotIn_bare (c : View) (h : n.Bare) (p : Slot) : c.slotIn n p = 0 := by
  induction p using Slot.parent_induction with
  | root p hp =>
    cases p with
    | direct i => exact h.direct i
    | indirect => exact h.indirect
    | double => exact h.doubleIndirect
    | single k => cases hp
    | middle k => cases hp
    | leaf k l => cases hp
  | entry p q hpq ih => rw [slotIn_parent c n hpq, ih, entry, if_pos rfl]

variable {c : View} {i : ℕ}

lemma View.slot_bare (h : (c.inodes i).Bare) (p : Slot) : c.slot i p = 0 :=
  c.slotIn_bare h p

lemma View.byteAt_bare (h : (c.inodes i).Bare) (k : ℕ) : c.byteAt i k = 0 := by
  unfold byteAt
  split
  next => rfl
  next p _ => rw [if_pos (slot_bare h p)]

variable {c' : View}

section

variable {j : ℕ} (hn : c'.inodes j = c.inodes j) (hd : c'.data = c.data)

include hn hd

/-- Slots depend on the inode and on the pointer blocks alone. -/
lemma View.slot_congr (p : Slot) : c'.slot j p = c.slot j p := by
  have hentry : ∀ t k, c'.entry t k = c.entry t k := fun t k => by rw [entry, entry, hd]
  rw [slot, slot, hn]
  cases p <;> simp only [slotIn, hentry]

lemma View.byteAt_congr (k : ℕ) : c'.byteAt j k = c.byteAt j k := by
  unfold byteAt
  simp only [slot_congr hn hd, hd]

end

/-- Laying inode `i` bare and freeing the blocks it held keeps the volume consistent, when the two
free counts are brought up to date. -/
theorem View.Consistent.strip (hc : c.Consistent) (hstart : c'.dataStart = c.dataStart)
    (hblocks : c'.totalBlocks = c.totalBlocks) (htotal : c'.totalInodes = c.totalInodes)
    (hdata : c'.data = c.data) (hother : ∀ j, j ≠ i → c'.inodes j = c.inodes j)
    (hbare : (c'.inodes i).Bare) (hused : ∀ b, c.InData b →
      (c'.used b = true ↔ c.used b = true ∧ ¬ (c.Live i ∧ ∃ p, c.slot i p = b)))
    (hfb : c'.freeBlocks =
      ((Finset.Ico c'.dataStart c'.totalBlocks).filter fun b => c'.used b = false).card)
    (hfi : c'.freeInodes =
      ((Finset.Ico 1 c'.totalInodes).filter fun j => (c'.inodes j).type = typeFree).card) :
    c'.Consistent := by
  have hin : ∀ b, c'.InData b ↔ c.InData b := fun b => by rw [InData, InData, hstart, hblocks]
  have hlive : ∀ j, j ≠ i → (c'.Live j ↔ c.Live j) := fun j hj => by
    rw [Live, Live, Valid, Valid, htotal, hother j hj]
  have hslot : ∀ j, j ≠ i → ∀ p, c'.slot j p = c.slot j p := fun j hj =>
    slot_congr (hother j hj) hdata
  -- a slot that holds a block belongs to another inode
  have hne : ∀ j p, c'.slot j p ≠ 0 → j ≠ i := by
    rintro j p hp rfl
    exact hp (slot_bare hbare p)
  refine ⟨by rw [hstart]; exact hc.dataStart_pos, by rw [hblocks]; exact hc.totalBlocks_lt,
    by rw [htotal]; exact hc.totalInodes_lt, ?_, ?_, ?_, ?_, hfb, hfi, ?_⟩
  · intro j p hj hp
    have hji := hne j p hp
    rw [hslot j hji] at hp ⊢
    exact (hin _).mpr (hc.inData j p ((hlive j hji).mp hj) hp)
  · intro j p hj hp
    have hji := hne j p hp
    have hj' := (hlive j hji).mp hj
    rw [hslot j hji] at hp ⊢
    refine (hused _ (hc.inData j p hj' hp)).mpr ⟨hc.used j p hj' hp, ?_⟩
    rintro ⟨hi, q, hq⟩
    exact hji (hc.unique j i p q hj' hi hp hq.symm).1
  · intro j k p q hj hk hp heq
    have hji := hne j p hp
    have hki := hne k q (heq ▸ hp)
    rw [hslot j hji] at hp heq
    rw [hslot k hki] at heq
    exact hc.unique j k p q ((hlive j hji).mp hj) ((hlive k hki).mp hk) hp heq
  · intro b hb hu
    have hb' := (hin b).mp hb
    obtain ⟨hub, hfree⟩ := (hused b hb').mp hu
    obtain ⟨j, p, hj, hp⟩ := hc.owned b hb' hub
    have hji : j ≠ i := by
      rintro rfl
      exact hfree ⟨hj, p, hp⟩
    exact ⟨j, p, (hlive j hji).mpr hj, (hslot j hji p).trans hp⟩
  · intro j hj
    by_cases hji : j = i
    · subst hji
      have hempty : c'.held j = ∅ := by
        refine eq_empty_of_forall_notMem fun p hp => ?_
        exact mem_held.mp hp (slot_bare hbare p)
      rw [hbare.blocks, hempty, card_empty]
    · rw [hother j hji, hc.blocks_eq j ((hlive j hji).mp hj)]
      refine congrArg Finset.card (Finset.ext fun p => ?_)
      rw [mem_held, mem_held, hslot j hji]

/-! ## Freeing blocks -/

namespace View

/-- What `block_free` does: release an allocated data block, ignore anything else. -/
def drop (c : View) (b : ℕ) : View := if c.InData b ∧ c.used b = true then c.release b else c

/-- The free block count is the number of clear bits of the data area. -/
def Counted (c : View) : Prop :=
  c.freeBlocks = ((Finset.Ico c.dataStart c.totalBlocks).filter fun b => c.used b = false).card

/-- A change of the allocation map and the free block count alone. -/
def SameBut (c c' : View) : Prop :=
  c' = { c with used := c'.used, freeBlocks := c'.freeBlocks }

lemma SameBut.trans {c'' : View} (h : c.SameBut c') (h' : c'.SameBut c'') : c.SameBut c'' := by
  rw [SameBut, h', h]

lemma drop_sameBut (c : View) (b : ℕ) : c.SameBut (c.drop b) := by
  unfold drop SameBut
  split <;> rfl

lemma drop_used (c : View) (b x : ℕ) :
    (c.drop b).used x = true ↔ c.used x = true ∧ ¬ (x = b ∧ c.InData b) := by
  unfold drop
  split
  next h =>
    by_cases hx : x = b
    · simp [release, hx, h.1]
    · simp [release, hx]
  next h =>
    refine ⟨fun hu => ⟨hu, ?_⟩, fun hu => hu.1⟩
    rintro ⟨rfl, hb⟩
    exact h ⟨hb, hu⟩

/-- A block that is freed is counted. -/
lemma drop_counted (hlt : c.totalBlocks < 4294967296) (h : c.Counted) (b : ℕ) :
    (c.drop b).Counted := by
  unfold drop
  split
  next hb =>
    obtain ⟨hdata, hu⟩ := hb
    have hsucc : ((Finset.Ico c.dataStart c.totalBlocks).filter
        fun x => (c.release b).used x = false).card =
        ((Finset.Ico c.dataStart c.totalBlocks).filter fun x => c.used x = false).card + 1 := by
      refine card_filter_succ (mem_Ico.mpr hdata) ?_ ?_ ?_
      · rw [hu]
        decide
      · exact Function.update_self ..
      · intro x _ hx
        rw [show (c.release b).used x = c.used x from Function.update_of_ne hx _ _]
    have hle := card_filter_le (Finset.Ico c.dataStart c.totalBlocks)
      fun x => (c.release b).used x = false
    rw [Nat.card_Ico, hsucc, ← h] at hle
    change inc32 c.freeBlocks = _
    rw [inc32_of_lt (by omega), h]
    exact hsucc.symm
  next => exact h

/-- Freeing a list of blocks. -/
def dropAll (c : View) (bs : List ℕ) : View := bs.foldl drop c

lemma dropAll_singleton (c : View) (b : ℕ) : c.dropAll [b] = c.drop b := rfl

lemma dropAll_append (c : View) (bs bs' : List ℕ) :
    c.dropAll (bs ++ bs') = (c.dropAll bs).dropAll bs' := foldl_append

/-- What freeing a list of blocks does to the allocation map and the count. -/
lemma dropAll_spec (hlt : c.totalBlocks < 4294967296) (h : c.Counted) (bs : List ℕ) :
    c.SameBut (c.dropAll bs) ∧ (c.dropAll bs).Counted ∧
      ∀ x, (c.dropAll bs).used x = true ↔ c.used x = true ∧ ¬ (x ∈ bs ∧ c.InData x) := by
  induction bs generalizing c with
  | nil => exact ⟨rfl, h, fun x => by simp [dropAll]⟩
  | cons b bs ih =>
    have hsame := c.drop_sameBut b
    have htotal : (c.drop b).totalBlocks = c.totalBlocks := by rw [hsame]
    have hin : ∀ x, (c.drop b).InData x ↔ c.InData x := fun x => by rw [hsame]; rfl
    obtain ⟨hsame', hcount, hused⟩ := ih (by rwa [htotal]) (drop_counted hlt h b)
    refine ⟨hsame.trans hsame', hcount, fun x => ?_⟩
    rw [show c.dropAll (b :: bs) = (c.drop b).dropAll bs from rfl, hused x, drop_used, hin,
      mem_cons]
    constructor
    · rintro ⟨⟨hu, hxb⟩, hxbs⟩
      refine ⟨hu, ?_⟩
      rintro ⟨rfl | hmem, hx⟩
      · exact hxb ⟨rfl, hx⟩
      · exact hxbs ⟨hmem, hx⟩
    · rintro ⟨hu, hx⟩
      refine ⟨⟨hu, ?_⟩, fun hmem => hx ⟨.inr hmem.1, hmem.2⟩⟩
      rintro ⟨rfl, hxd⟩
      exact hx ⟨.inl rfl, hxd⟩

/-! ## The blocks a truncation frees -/

/-- The entries of a pointer block and then the pointer block itself; nothing when there is none. -/
def tableRefs (c : View) (t : ℕ) : List ℕ := if t = 0 then [] else tableOf (c.data t) ++ [t]

/-- The blocks below a double-indirect block and then that block. -/
def doubleRefs (c : View) (t : ℕ) : List ℕ :=
  if t = 0 then [] else (tableOf (c.data t)).flatMap c.tableRefs ++ [t]

/-- The block numbers `wfs_truncate` goes through, in its order. -/
def refs (c : View) (n : Inode) : List ℕ :=
  List.ofFn n.direct ++ c.tableRefs n.indirect ++ c.doubleRefs n.doubleIndirect

lemma mem_tableOf {t : Buf} {b : ℕ} : b ∈ tableOf t ↔ ∃ k : Fin 256, t.word k = b := by
  rw [tableOf, mem_map]
  constructor
  · rintro ⟨k, hk, rfl⟩
    exact ⟨⟨k, mem_range.mp hk⟩, rfl⟩
  · rintro ⟨k, rfl⟩
    exact ⟨k, mem_range.mpr k.isLt, rfl⟩

lemma mem_tableRefs {t b : ℕ} (hb : b ≠ 0) :
    b ∈ c.tableRefs t ↔ b = t ∨ ∃ k : Fin 256, c.entry t k = b := by
  unfold tableRefs entry
  by_cases ht : t = 0
  · simp [ht, hb, hb.symm]
  · simp [ht, mem_tableOf, or_comm]

/-- A truncation goes through the blocks in the slots of the inode, and no others. -/
lemma mem_refs {b : ℕ} (hb : b ≠ 0) : b ∈ c.refs n ↔ ∃ p, c.slotIn n p = b := by
  have hdouble : b ∈ c.doubleRefs n.doubleIndirect ↔ b = n.doubleIndirect ∨
      ∃ k : Fin 256, b ∈ c.tableRefs (c.entry n.doubleIndirect k) := by
    unfold doubleRefs entry
    by_cases ht : n.doubleIndirect = 0
    · simp [ht, hb, tableRefs]
    simp only [ht, if_false, mem_append, mem_flatMap, mem_singleton, mem_tableOf]
    constructor
    · rintro (⟨t, ⟨k, rfl⟩, hmem⟩ | hd)
      · exact .inr ⟨k, hmem⟩
      · exact .inl hd
    · rintro (hd | ⟨k, hmem⟩)
      · exact .inr hd
      · exact .inl ⟨_, ⟨k, rfl⟩, hmem⟩
  rw [refs, mem_append, mem_append, mem_ofFn, mem_tableRefs hb, hdouble]
  constructor
  · rintro ((⟨i, hi⟩ | hs | ⟨k, hk⟩) | hd | ⟨k, hmem⟩)
    · exact ⟨.direct i, hi⟩
    · exact ⟨.indirect, hs.symm⟩
    · exact ⟨.single k, hk⟩
    · exact ⟨.double, hd.symm⟩
    · rcases (mem_tableRefs hb).mp hmem with hm | ⟨l, hl⟩
      · exact ⟨.middle k, hm.symm⟩
      · exact ⟨.leaf k l, hl⟩
  · rintro ⟨p, hp⟩
    cases p with
    | direct i => exact .inl (.inl ⟨i, hp⟩)
    | indirect => exact .inl (.inr (.inl hp.symm))
    | single k => exact .inl (.inr (.inr ⟨k, hp⟩))
    | double => exact .inr (.inl hp.symm)
    | middle k => exact .inr (.inr ⟨k, (mem_tableRefs hb).mpr (.inl hp.symm)⟩)
    | leaf k l => exact .inr (.inr ⟨k, (mem_tableRefs hb).mpr (.inr ⟨l, hp⟩)⟩)

end View

/-! ## `wfs_truncate` -/

/-- What `wfs_truncate` does: inode `i` loses its blocks and its size, nothing else changes. -/
structure Emptied (i : ℕ) (c c' : View) : Prop where
  consistent : c'.Consistent
  dataStart_eq : c'.dataStart = c.dataStart
  totalBlocks_eq : c'.totalBlocks = c.totalBlocks
  totalInodes_eq : c'.totalInodes = c.totalInodes
  freeInodes_eq : c'.freeInodes = c.freeInodes
  /-- The bytes of the blocks stay on disk. -/
  data_eq : c'.data = c.data
  /-- Other inodes stay. -/
  inodes_eq : ∀ j, j ≠ i → c'.inodes j = c.inodes j
  type_eq : (c'.inodes i).type = (c.inodes i).type
  /-- The inode has no blocks left. -/
  bare : (c'.inodes i).Bare
  size_eq : (c'.inodes i).size = 0

lemma Emptied.type_eq_all (h : Emptied i c c') (j : ℕ) :
    (c'.inodes j).type = (c.inodes j).type := by
  by_cases hj : j = i
  · rw [hj, h.type_eq]
  · rw [h.inodes_eq j hj]

lemma Emptied.live_iff (h : Emptied i c c') (j : ℕ) : c'.Live j ↔ c.Live j := by
  rw [View.Live, View.Live, View.Valid, View.Valid, h.totalInodes_eq, h.type_eq_all]

section Truncate

lemma View.data_dropAll (c : View) (bs : List ℕ) : (c.dropAll bs).data = c.data := by
  induction bs generalizing c with
  | nil => rfl
  | cons b bs ih =>
    rw [show c.dropAll (b :: bs) = (c.drop b).dropAll bs from rfl, ih, c.drop_sameBut b]

lemma View.tableRefs_congr (h : c'.data = c.data) : c'.tableRefs = c.tableRefs := by
  funext t
  rw [tableRefs, tableRefs, h]

variable {v : Volume}

section Truncate

variable (hv : Healthy v)

include hv

lemma Healthy.not_inData_zero : ¬ v.view.InData 0 := by
  have := hv.geometry.bitmap_pos
  have := hv.geometry.bitmap_end
  have := hv.geometry.inode_end
  rw [Volume.view_inData]
  omega

lemma blockFree_view (b : ℕ) :
    (blockFree v b).view = v.view.drop b ∧ (blockFree v b).frame = v.frame := blockFree_spec hv b

/-- All blocks of a list are freed. -/
lemma freeBlocks_spec (bs : List ℕ) :
    (freeBlocks v bs).view = v.view.dropAll bs ∧ (freeBlocks v bs).frame = v.frame := by
  induction bs generalizing v with
  | nil => exact ⟨rfl, rfl⟩
  | cons b bs ih =>
    -- one block, whether it is 0 or not
    obtain ⟨hview, hframe⟩ : (if b ≠ 0 then blockFree v b else v).view = v.view.drop b ∧
        (if b ≠ 0 then blockFree v b else v).frame = v.frame := by
      by_cases hb : b = 0
      · subst hb
        rw [if_neg (by simp), View.drop, if_neg (fun h => hv.not_inData_zero h.1)]
        exact ⟨rfl, rfl⟩
      · rw [if_pos hb]
        exact blockFree_view hv b
    obtain ⟨hview', hframe'⟩ := ih (hv.of_frame hframe)
    rw [freeBlocks, foldl_cons]
    refine ⟨hview'.trans ?_, hframe'.trans hframe⟩
    rw [hview]
    rfl

/-- A pointer block and the blocks it names. -/
lemma freeTable_spec {t : ℕ} (ht0 : t ≠ 0) (ht : v.view.InData t) :
    (blockFree (freeTable v t) t).view = v.view.dropAll (v.view.tableRefs t) ∧
      (blockFree (freeTable v t) t).frame = v.frame := by
  obtain ⟨hview, hframe⟩ := freeBlocks_spec hv (tableOf (v.view.data t))
  have htable : freeTable v t = freeBlocks v (tableOf (v.view.data t)) := by
    rw [freeTable, if_neg ht0, blockRead_data hv ht]
  obtain ⟨hview', hframe'⟩ := blockFree_view (hv.of_frame hframe) t
  rw [htable]
  refine ⟨?_, hframe'.trans hframe⟩
  rw [hview', hview, View.tableRefs, if_neg ht0, dropAll_append, dropAll_singleton]

/-- The middle blocks of a double-indirect block, one after another. -/
lemma freeMiddles_spec (mids : List ℕ) (hmids : ∀ t ∈ mids, t ≠ 0 → v.view.InData t) :
    (mids.foldl (fun v t => if t ≠ 0 then blockFree (freeTable v t) t else v) v).view =
        v.view.dropAll (mids.flatMap v.view.tableRefs) ∧
      (mids.foldl (fun v t => if t ≠ 0 then blockFree (freeTable v t) t else v) v).frame =
        v.frame := by
  induction mids generalizing v with
  | nil => exact ⟨rfl, rfl⟩
  | cons t mids ih =>
    obtain ⟨hview, hframe⟩ :
        (if t ≠ 0 then blockFree (freeTable v t) t else v).view =
            v.view.dropAll (v.view.tableRefs t) ∧
          (if t ≠ 0 then blockFree (freeTable v t) t else v).frame = v.frame := by
      by_cases ht : t = 0
      · rw [if_neg (not_not.mpr ht), View.tableRefs, if_pos ht]
        exact ⟨rfl, rfl⟩
      · rw [if_pos ht]
        exact freeTable_spec hv ht (hmids t mem_cons_self ht)
    have hsb := (Volume.frame_eq hframe).1
    obtain ⟨hview', hframe'⟩ := ih (hv.of_frame hframe) (fun s hs hs0 => by
      rw [Volume.view_inData, hsb]
      exact hmids s (mem_cons_of_mem _ hs) hs0)
    rw [foldl_cons]
    refine ⟨?_, hframe'.trans hframe⟩
    rw [hview', flatMap_cons, dropAll_append, hview, View.tableRefs_congr (v.view.data_dropAll _)]

lemma freeDouble_spec {t : ℕ} (ht0 : t ≠ 0) (ht : v.view.InData t)
    (hmids : ∀ s ∈ tableOf (v.view.data t), s ≠ 0 → v.view.InData s) :
    (freeDouble v t).view = v.view.dropAll (v.view.doubleRefs t) ∧
      (freeDouble v t).frame = v.frame := by
  obtain ⟨hview, hframe⟩ := freeMiddles_spec hv _ hmids
  obtain ⟨hview', hframe'⟩ := blockFree_view (hv.of_frame hframe) t
  unfold freeDouble
  rw [blockRead_data hv ht]
  refine ⟨hview'.trans ?_, hframe'.trans hframe⟩
  rw [hview, View.doubleRefs, if_neg ht0, dropAll_append, dropAll_singleton]

/-- The three parts of `wfs_truncate` that free blocks. -/
lemma freeAll_spec (hdata : ∀ p, v.view.slotIn n p ≠ 0 → v.view.InData (v.view.slotIn n p)) :
    let v1 := freeBlocks v (List.ofFn n.direct)
    let v2 := if n.indirect ≠ 0 then blockFree (freeTable v1 n.indirect) n.indirect else v1
    let v3 := if n.doubleIndirect ≠ 0 then freeDouble v2 n.doubleIndirect else v2
    v3.view = v.view.dropAll (v.view.refs n) ∧ v3.frame = v.frame := by
  intro v1 v2 v3
  obtain ⟨hview1, hframe1⟩ : v1.view = _ ∧ v1.frame = v.frame := freeBlocks_spec hv _
  have hv1 := hv.of_frame hframe1
  -- freeing blocks moves no region and changes no pointer block
  have hin : ∀ {w : Volume}, w.frame = v.frame → ∀ b, w.view.InData b ↔ v.view.InData b := by
    intro w hw b
    rw [Volume.view_inData, (Volume.frame_eq hw).1]
    rfl
  have hdata1 : v1.view.data = v.view.data := by rw [hview1, View.data_dropAll]
  obtain ⟨hview2, hframe2⟩ : v2.view = v1.view.dropAll (v1.view.tableRefs n.indirect) ∧
      v2.frame = v1.frame := by
    by_cases hz : n.indirect = 0
    · rw [show v2 = v1 from if_neg (not_not.mpr hz), View.tableRefs, if_pos hz]
      exact ⟨rfl, rfl⟩
    · rw [show v2 = _ from if_pos hz]
      exact freeTable_spec hv1 hz ((hin hframe1 _).mpr (hdata .indirect hz))
  have hv2 := hv1.of_frame hframe2
  have hdata2 : v2.view.data = v.view.data := by rw [hview2, View.data_dropAll, hdata1]
  obtain ⟨hview3, hframe3⟩ : v3.view = v2.view.dropAll (v2.view.doubleRefs n.doubleIndirect) ∧
      v3.frame = v2.frame := by
    by_cases hz : n.doubleIndirect = 0
    · rw [show v3 = v2 from if_neg (not_not.mpr hz), View.doubleRefs, if_pos hz]
      exact ⟨rfl, rfl⟩
    have hframe := hframe2.trans hframe1
    rw [show v3 = _ from if_pos hz]
    refine freeDouble_spec hv2 hz ((hin hframe _).mpr (hdata .double hz)) ?_
    intro s hs hs0
    rw [hdata2, mem_tableOf] at hs
    obtain ⟨k, rfl⟩ := hs
    have hslot : v.view.slotIn n (.middle k) = (v.view.data n.doubleIndirect).word k :=
      if_neg hz
    rw [hin hframe, ← hslot]
    exact hdata (.middle k) (by rwa [hslot])
  refine ⟨?_, hframe3.trans (hframe2.trans hframe1)⟩
  rw [hview3, hview2, hview1, View.refs, dropAll_append, dropAll_append,
    View.tableRefs_congr (v.view.data_dropAll _)]
  congr 1
  rw [View.doubleRefs, View.doubleRefs, View.data_dropAll, View.data_dropAll,
    View.tableRefs_congr (((v.view.dropAll _).data_dropAll _).trans (v.view.data_dropAll _))]

/-- `wfs_truncate` lays the inode bare. -/
theorem truncate_spec (hc : v.view.Consistent) {ino : ℕ} (hi : v.view.Live ino) :
    ∃ v', truncate v ino = (.ok (), v') ∧ v'.frame = v.frame ∧ Emptied ino v.view v'.view := by
  have hdata := fun p => hc.inData ino p hi
  obtain ⟨hview, hframe⟩ := freeAll_spec hv hdata
  unfold truncate
  rw [readInode_ok hv hi.1]
  dsimp only at hview hframe ⊢
  generalize (if (v.view.inodes ino).doubleIndirect ≠ 0 then _ else _) = v3 at hview hframe ⊢
  have hv3 := hv.of_frame hframe
  obtain ⟨hsame, hcount, hused⟩ := dropAll_spec hc.totalBlocks_lt hc.freeBlocks_eq
    (v.view.refs (v.view.inodes ino))
  rw [← hview] at hsame hcount hused
  have hvalid : v3.view.Valid ino := by
    rw [hsame]
    exact hi.1
  let n' : Inode := { Inode.zero with
    type := (v.view.inodes ino).type
    links := (v.view.inodes ino).links
    mtime := rtcEpoch v3 }
  have hn' : n'.Fits := by
    have hfits := v.view_inodes_fits ino
    refine ⟨hfits.type_lt, hfits.links_lt, ?_, ?_, Nat.mod_lt _ (by omega), ?_, ?_, ?_⟩ <;>
      simp [n', Inode.zero]
  obtain ⟨v', hw, hview', hframe'⟩ := writeInode_spec hv3 hvalid hn'
  have hself : v'.view.inodes ino = n' := by rw [hview', setInode_inodes_self]
  have hother : ∀ j, j ≠ ino → v'.view.inodes j = v.view.inodes j := by
    intro j hj
    rw [hview', setInode_inodes_of_ne _ hj, hsame]
  have hbare : n'.Bare := ⟨fun _ => rfl, rfl, rfl, rfl⟩
  have htype : ∀ j, (v'.view.inodes j).type = (v.view.inodes j).type := by
    intro j
    by_cases hj : j = ino
    · rw [hj, hself]
    · rw [hother j hj]
  refine ⟨v', hw, hframe'.trans hframe, ⟨?_, ?_, ?_, ?_, ?_, ?_, hother, htype ino, ?_, ?_⟩⟩
  · refine hc.strip (i := ino) ?_ ?_ ?_ ?_ hother (hself ▸ hbare) ?_ ?_ ?_
    all_goals rw [hview']
    · rw [hsame]
      rfl
    · rw [hsame]
      rfl
    · rw [hsame]
      rfl
    · rw [hsame]
      rfl
    · -- the freed blocks are those the slots of the inode held
      intro b hb
      have hb0 : b ≠ 0 := hc.ne_zero hb
      rw [show (v3.view.setInode ino n').used = v3.view.used from rfl, hused b, mem_refs hb0]
      refine and_congr_right fun _ => not_congr ?_
      exact ⟨fun h => ⟨hi, h.1⟩, fun h => ⟨h.2, hb⟩⟩
    · exact hcount
    · rw [← hview', show v'.view.freeInodes = v.view.freeInodes by rw [hview', hsame]; rfl,
        show v'.view.totalInodes = v.view.totalInodes by rw [hview', hsame]; rfl,
        hc.freeInodes_eq]
      refine congrArg Finset.card (filter_congr fun j _ => ?_)
      rw [htype j]
  all_goals first | (rw [hself]; first | exact hbare | rfl) | (rw [hview', hsame]; rfl)

end Truncate

end Truncate

/-! ## Claiming and giving back an inode -/

lemma Inode.bare_zero : Inode.zero.Bare := ⟨fun _ => rfl, rfl, rfl, rfl⟩

lemma freshInode_bare (v : Volume) (type : ℕ) : (freshInode v type).Bare :=
  ⟨fun _ => rfl, rfl, rfl, rfl⟩

section Inodes

variable {c : View} (hc : c.Consistent) {i : ℕ}

include hc

/-- Replacing an inode that holds no block by one that holds none keeps the volume consistent. -/
lemma View.Consistent.setBare (hempty : c.Live i → ∀ p, c.slot i p = 0) (hn : n.Bare) {free : ℕ}
    (hfree : free = ((Finset.Ico 1 c.totalInodes).filter
      fun j => ((c.setInode i n).inodes j).type = typeFree).card) :
    ((c.setInode i n).setFreeInodes free).Consistent := by
  refine hc.strip (i := i) rfl rfl rfl rfl (fun j hj => c.setInode_inodes_of_ne hj n) ?_ ?_
    hc.freeBlocks_eq hfree
  · rw [show ((c.setInode i n).setFreeInodes free).inodes i = n from c.setInode_inodes_self i n]
    exact hn
  intro b hb
  refine (and_iff_left ?_).symm
  rintro ⟨hlive, p, hp⟩
  exact hc.ne_zero hb (hp.symm.trans (hempty hlive p))

variable (hi : c.Valid i)

include hi

/-- The number of free inodes is below the number of inodes. -/
lemma View.Consistent.freeInodes_lt : c.freeInodes + 1 < 4294967296 := by
  have hle := card_filter_le (Finset.Ico 1 c.totalInodes)
    fun j => (c.inodes j).type = typeFree
  rw [Nat.card_Ico, ← hc.freeInodes_eq] at hle
  have hlt := hc.totalInodes_lt
  have hpos := hi.1.trans hi.2
  omega

/-- `inode_free` of an inode without blocks. -/
theorem View.Consistent.freeInode (htype : (c.inodes i).type ≠ typeFree)
    (hempty : ∀ p, c.slot i p = 0) :
    ((c.setInode i Inode.zero).setFreeInodes (inc32 c.freeInodes)).Consistent := by
  refine hc.setBare (fun _ => hempty) Inode.bare_zero ?_
  have hlt := hc.freeInodes_lt hi
  rw [inc32_of_lt (by omega), hc.freeInodes_eq]
  refine (card_filter_succ (mem_Ico.mpr ⟨hi.1, hi.2⟩) htype ?_ fun j _ hj => ?_).symm
  · rw [setInode_inodes_self]
    rfl
  · rw [setInode_inodes_of_ne c hj]

/-- `inode_alloc` of a free inode. -/
theorem View.Consistent.allocInode (htype : (c.inodes i).type = typeFree) (hn : n.Bare)
    (hntype : n.type ≠ typeFree) :
    ((c.setInode i n).setFreeInodes (dec32 c.freeInodes)).Consistent := by
  refine hc.setBare (fun hlive => absurd htype hlive.2) hn ?_
  have hsucc : c.freeInodes = ((Finset.Ico 1 c.totalInodes).filter
      fun j => ((c.setInode i n).inodes j).type = typeFree).card + 1 := by
    rw [hc.freeInodes_eq]
    refine card_filter_succ (mem_Ico.mpr ⟨hi.1, hi.2⟩) ?_ htype fun j _ hj => ?_
    · rwa [setInode_inodes_self]
    · rw [setInode_inodes_of_ne c hj]
  rw [dec32_of_pos (by omega), hsucc, Nat.add_sub_cancel]

end Inodes

end Wos.Wfs
