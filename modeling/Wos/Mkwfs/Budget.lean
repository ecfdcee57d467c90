import Wos.Mkwfs.Intact

/-!
# What a staging directory costs

`mkwfs` gives up when it runs out of blocks or inodes. How many of them a staging directory takes
can be said beforehand: a file of `n` blocks takes these and the pointer blocks that name them, a
directory is a file of 32 bytes for each entry, and everything takes one inode.

Blocks are taken in the order of the file, so each file holds exactly the blocks of its size
(`Packed`); therefore the count is exact, and the tool finishes if and only if the count is within
what it has.

## Main definitions

* `Image.room`: how many blocks can still be taken;
* `Costs`: an operation takes so much, and fails exactly when there is less;
* `fileBlocks`, `HostDir.blocks`: what files and directories take.

## Main results

* `bmap_costs`, `fileWrite_costs`, `dirAdd_costs`, `addTree_costs`;
* `mkwfs_isSome_iff`: which staging directories `mkwfs` has room for.
-/

namespace Wos.Mkwfs

open Wfs List Option Nat
open Finset hiding mem_singleton_self

/-! ## Room -/

/-- How many blocks `block_alloc` can still hand out: of the free blocks, those in memory. -/
def Image.room (img : Image) : ℕ := img.view.freeBlocks - (img.view.totalBlocks - img.built)

/-- The part of the volume that is in memory holds the metadata. -/
structure Image.Partial (img : Image) : Prop where
  dataStart_le : img.view.dataStart ≤ img.built
  built_le : img.built ≤ img.view.totalBlocks

variable {img img' : Image}

lemma Keeps.isPartial (h : Keeps img img') (hp : img.Partial) : img'.Partial := by
  refine ⟨?_, ?_⟩
  · rw [h.dataStart_eq, h.built_eq]
    exact hp.dataStart_le
  · rw [h.totalBlocks_eq, h.built_eq]
    exact hp.built_le

/-- Everything that the count rests on. -/
structure Ready (img : Image) : Prop where
  storable : Storable img
  consistent : img.view.Consistent
  isPartial : img.Partial

section Room

variable {img : Image} (h : Ready img)

include h

/-- The free blocks are those in memory and all that are not. -/
lemma Ready.freeBlocks_eq : img.view.freeBlocks =
    ((Finset.Ico img.view.dataStart img.built).filter fun b => img.view.used b = false).card +
      (img.view.totalBlocks - img.built) := by
  have hall : (Finset.Ico img.built img.view.totalBlocks).filter
      (fun b => img.view.used b = false) = Finset.Ico img.built img.view.totalBlocks := by
    apply filter_true_of_mem
    intro b hb
    rw [mem_Ico] at hb
    have hin : img.view.InData b := ⟨h.isPartial.dataStart_le.trans hb.1, hb.2⟩
    by_contra hused
    exact absurd (h.storable.inMemory b hin (Bool.eq_true_of_not_eq_false hused)) (by omega)
  rw [h.consistent.freeBlocks_eq,
    ← Finset.Ico_union_Ico_eq_Ico h.isPartial.dataStart_le h.isPartial.built_le,
    filter_union, card_union_of_disjoint, hall, card_Ico]
  exact disjoint_filter_filter (Finset.Ico_disjoint_Ico_consecutive _ _ _)

lemma Ready.room_eq : img.room =
    ((Finset.Ico img.view.dataStart img.built).filter fun b => img.view.used b = false).card := by
  rw [Image.room, h.freeBlocks_eq, Nat.add_sub_cancel]

lemma Ready.freeBlocks_eq_room :
    img.view.freeBlocks = img.room + (img.view.totalBlocks - img.built) := by
  rw [h.room_eq, ← h.freeBlocks_eq]

/-- `block_alloc` gives up only when there is no room. -/
lemma Ready.room_eq_zero (halloc : blockAlloc img = none) : img.room = 0 := by
  rw [h.room_eq, Finset.card_eq_zero, filter_eq_empty_iff]
  intro b hb hfree
  rw [mem_Ico] at hb
  have hle := h.isPartial.built_le
  rw [blockAlloc] at halloc
  cases hfind : (range' img.view.dataStart
      (img.view.totalBlocks - img.view.dataStart)).find? fun b => !img.view.used b with
  | none =>
    have hused := find?_eq_none.mp hfind b (mem_range'_1.mpr ⟨hb.1, by omega⟩)
    simp [hfree] at hused
  | some k =>
    rw [hfind] at halloc
    -- the first free block is not behind this one, so it is in memory as well
    have hfirst : k ≤ b := by
      by_contra hlt
      obtain ⟨-, i, hi, hget, hbefore⟩ := find?_eq_some_iff_getElem.mp hfind
      rw [getElem_range'] at hget
      have hused := hbefore (b - img.view.dataStart) (by omega)
      rw [getElem_range', Nat.one_mul, Nat.add_sub_cancel' hb.1, hfree] at hused
      simp at hused
    have hmem : img.InMemory k := ⟨by omega, by omega⟩
    simp [hmem] at halloc

end Room

/-! ## Costs -/

/-- An operation on an image takes so many blocks and so many inodes, and it fails exactly when the
image has fewer. -/
def Costs (blocks inodes : ℕ) (img : Image) : Option Image → Prop
  | none => img.room < blocks ∨ img.view.freeInodes < inodes
  | some img' => img'.room + blocks = img.room ∧ img'.view.freeInodes + inodes = img.view.freeInodes

namespace Costs

variable {k l n m : ℕ} {img : Image}

lemma refl (img : Image) : Costs 0 0 img (some img) := ⟨rfl, rfl⟩

variable {x : Option Image}

/-- One operation has succeeded, and another follows. -/
lemma after (h : Costs k n img (some img'))
    (hx : Costs l m img' x) : Costs (k + l) (n + m) img x := by
  obtain ⟨hroom, hinodes⟩ := h
  cases x with
  | none => exact hx.imp (fun h => by omega) fun h => by omega
  | some img'' =>
    obtain ⟨hroom', hinodes'⟩ := hx
    exact ⟨by omega, by omega⟩

lemma none_mono (h : Costs k n img none) (hk : k ≤ l) (hn : n ≤ m) : Costs l m img none :=
  Or.imp (fun hroom => lt_of_lt_of_le hroom hk) (fun hinodes => lt_of_lt_of_le hinodes hn) h

/-- One operation after another; `π` is the image in what the first one returns. -/
lemma bindWith {α : Type} {π : α → Image} {x : Option α} {f : α → Option Image}
    (hx : Costs k n img (x.map π)) (hf : ∀ r, x = some r → Costs l m (π r) (f r)) :
    Costs (k + l) (n + m) img (x.bind f) := by
  cases x with
  | none => exact hx.none_mono (Nat.le_add_right ..) (Nat.le_add_right ..)
  | some r => exact hx.after (hf r rfl)

/-- What is left counts, and nothing else. -/
lemma congr (hroom : img'.room = img.room) (hinodes : img'.view.freeInodes = img.view.freeInodes)
    (hx : Costs k n img' x) :
    Costs k n img x := by
  cases x with
  | none | some img'' =>
    rw [Costs, hroom, hinodes] at hx
    exact hx

/-- It succeeds exactly when the image has as much. -/
lemma isSome_iff (hx : Costs k n img x) : x.isSome ↔ k ≤ img.room ∧ n ≤ img.view.freeInodes := by
  cases x with
  | none =>
    refine iff_of_false (by simp) ?_
    rcases hx with h | h <;> omega
  | some img' =>
    obtain ⟨hroom, hinodes⟩ := hx
    exact iff_of_true rfl ⟨by omega, by omega⟩

end Costs

/-- An operation takes so much, and `Q` holds of what it returns; `π` is the image in that. -/
structure Leaves {α : Type} (blocks inodes : ℕ) (img : Image) (π : α → Image) (x : Option α)
    (Q : α → Prop) : Prop where
  costs : Costs blocks inodes img (x.map π)
  holds : ∀ r, x = some r → Q r

lemma Costs.leaves {k n : ℕ} {x : Option Image} {Q : Image → Prop} (hx : Costs k n img x)
    (hQ : ∀ img', x = some img' → Q img') : Leaves k n img id x Q := by
  refine ⟨?_, hQ⟩
  rwa [Option.map_id]

namespace Leaves

variable {α β : Type} {k l n m : ℕ} {π : α → Image} {π' : β → Image} {x : Option α} {P : α → Prop}
  {Q : β → Prop}

lemma refl {Q : Image → Prop} (hQ : Q img) : Leaves 0 0 img id (some img) Q :=
  ⟨.refl img, fun _ heq => Option.some.inj heq ▸ hQ⟩

lemma of_eq (h : Leaves k n img π x P) (hk : k = l) : Leaves l n img π x P := hk ▸ h

lemma mono {R : α → Prop} (h : Leaves k n img π x P) (hP : ∀ r, P r → R r) :
    Leaves k n img π x R := ⟨h.costs, fun r hr => hP r (h.holds r hr)⟩

section

variable (hx : Leaves k n img π x P)

include hx

/-- One operation after another. -/
lemma bind_costs {f : α → Option β} (hf : ∀ r, P r → Costs l m (π r) ((f r).map π')) :
    Costs (k + l) (n + m) img ((x.bind f).map π') := by
  rw [map_bind]
  exact hx.costs.bindWith fun r hr => hf r (hx.holds r hr)

lemma bind {f : α → Option β} (hf : ∀ r, P r → Leaves l m (π r) π' (f r) Q) :
    Leaves (k + l) (n + m) img π' (x.bind f) Q := by
  refine ⟨hx.bind_costs fun r hr => (hf r hr).costs, fun r hr => ?_⟩
  obtain ⟨a, ha, hr⟩ := bind_eq_some_iff.mp hr
  exact (hf a (hx.holds a ha)).holds r hr

/-- What is done to the result takes nothing. -/
lemma map {f : α → β}
    (hleft : ∀ r, (π' (f r)).room = (π r).room ∧ (π' (f r)).view.freeInodes = (π r).view.freeInodes)
    (hf : ∀ r, P r → Q (f r)) : Leaves k n img π' (x.map f) Q := by
  refine ⟨?_, fun r hr => ?_⟩
  · have hcosts := hx.costs
    cases x with
    | none => exact hcosts
    | some r =>
      change (π' (f r)).room + k = _ ∧ (π' (f r)).view.freeInodes + n = _
      rw [(hleft r).1, (hleft r).2]
      exact hcosts
  · obtain ⟨a, ha, rfl⟩ := map_eq_some_iff.mp hr
    exact hf a (hx.holds a ha)

end

end Leaves

/-! ## The block map -/

variable {c : View} {index : ℕ}

section BlockMap

variable {img : Image} (h : Ready img) {ino : ℕ} (hi : img.view.Live ino) {on : List Slot}

lemma Maps.ready (hm : Maps ino on img img') (h : Ready img) : Ready img' :=
  ⟨hm.storable, hm.grows.consistent h.consistent, hm.keeps.isPartial h.isPartial⟩

include h in
/-- What a step of the block map takes: a block for every slot that was empty. -/
lemma Maps.room_add (hm : Maps ino on img img') (hon : on.Nodup) :
    img'.room + img.view.missing ino on = img.room + img'.view.missing ino on := by
  have hadd := hm.grows.freeBlocks_add_missing h.consistent hon
  have hfree := h.freeBlocks_eq_room
  have hfree' := (hm.ready h).freeBlocks_eq_room
  rw [hm.keeps.totalBlocks_eq, hm.keeps.built_eq] at hfree'
  omega

lemma Maps.freeInodes_eq (hm : Maps ino on img img') (hc : img.view.Consistent) :
    img'.view.freeInodes = img.view.freeInodes := (hm.grows.touches hc).freeInodes_eq

lemma missing_append (c : View) (on on' : List Slot) :
    c.missing ino (on ++ on') = c.missing ino on + c.missing ino on' := countP_append

variable {p : Slot}

lemma missing_singleton_of_eq (hp : c.slot ino p = 0) : c.missing ino [p] = 1 := by
  simp [View.missing, hp]

lemma missing_singleton_of_ne (hp : c.slot ino p ≠ 0) : c.missing ino [p] = 0 := by
  simp [View.missing, hp]

include h

lemma fillPtr_eq_none {f : PtrField} (hnone : fillPtr img ino f = none) :
    (img.view.inodes ino).ptr f = 0 ∧ img.room = 0 := by
  rw [fillPtr] at hnone
  split_ifs at hnone with hptr
  exact ⟨not_not.mp hptr, h.room_eq_zero (map_eq_none_iff.mp hnone)⟩

include hi

/-- A pointer block of a live inode is in memory. -/
lemma Ready.inMemory {q : Slot} (hq : img.view.slot ino q ≠ 0) :
    img.InMemory (img.view.slot ino q) := by
  have hin := h.consistent.inData ino q hi hq
  exact ⟨hin.2, h.storable.inMemory _ hin (h.consistent.used ino q hi hq)⟩

lemma tableSlot_eq_none {q : Slot} (hpq : p.parent = some q) {t : ℕ}
    (ht : img.view.slot ino q = t) (ht0 : t ≠ 0) (hnone : tableSlot img t p.index ino = none) :
    img.view.slot ino p = 0 ∧ img.room = 0 := by
  subst ht
  have hentry : img.view.slot ino p = (img.view.data (img.view.slot ino q)).word p.index := by
    rw [View.slot_parent _ _ hpq, View.entry, if_neg ht0]
  rw [tableSlot, if_neg (not_not.mpr (h.inMemory hi ht0))] at hnone
  split_ifs at hnone with hword
  exact ⟨hentry.trans (not_not.mp hword), h.room_eq_zero (map_eq_none_iff.mp hnone)⟩

omit hi in
/-- A slot takes a block if it is empty. -/
lemma slot_costs {α : Type} {π : α → Image} {x : Option α}
    (hnone : x = none → img.view.slot ino p = 0 ∧ img.room = 0)
    (hsome : ∀ r, x = some r → Maps ino [p] img (π r) ∧ (π r).view.slot ino p ≠ 0) :
    Costs (img.view.missing ino [p]) 0 img (x.map π) := by
  cases x with
  | none =>
    obtain ⟨hslot, hroom⟩ := hnone rfl
    rw [missing_singleton_of_eq hslot]
    exact .inl (by omega)
  | some r =>
    obtain ⟨hm, hslot⟩ := hsome r rfl
    have hadd := hm.room_add h (nodup_singleton p)
    rw [missing_singleton_of_ne hslot] at hadd
    exact ⟨hadd, hm.freeInodes_eq h.consistent⟩

lemma tableSlot_leaves {q : Slot} (hpq : p.parent = some q) {t : ℕ}
    (ht : img.view.slot ino q = t) (ht0 : t ≠ 0) :
    Leaves (img.view.missing ino [p]) 0 img Prod.snd (tableSlot img t p.index ino) fun r =>
      Maps ino [p] img r.2 ∧ r.2.view.slot ino p = r.1 ∧ r.1 ≠ 0 := by
  have hspec := fun r (hr : tableSlot img t p.index ino = some r) => tableSlot_spec h.storable
    h.consistent hi hpq (mem_singleton_self p) ht ht0 (b := r.1) hr
  refine ⟨slot_costs h (tableSlot_eq_none h hi hpq ht ht0) fun r hr => ?_, hspec⟩
  obtain ⟨hm, hslot, hb0⟩ := hspec r hr
  exact ⟨hm, hslot.trans_ne hb0⟩

lemma fillPtr_leaves (f : PtrField) :
    Leaves (img.view.missing ino [f.slot]) 0 img id (fillPtr img ino f) fun img' =>
      Maps ino [f.slot] img img' ∧ (img'.view.inodes ino).ptr f ≠ 0 := by
  have hslot : ∀ c : View, c.slot ino f.slot = (c.inodes ino).ptr f := fun c =>
    PtrField.slotIn_slot c _ f
  have hspec := fun img' (hfill : fillPtr img ino f = some img') => fillPtr_spec h.storable
    h.consistent hi (mem_singleton_self f.slot) hfill
  refine ⟨slot_costs h (fun hnone => ?_) fun img' hfill => ?_, hspec⟩
  · rw [hslot]
    exact fillPtr_eq_none h hnone
  · rw [hslot]
    exact hspec img' hfill

omit h hi in
/-- A step on other slots leaves a slot as full or empty as it was. -/
lemma Maps.missing_eq (hm : Maps ino on img img') (hp : p ∉ on) :
    img'.view.missing ino [p] = img.view.missing ino [p] := by
  rw [View.missing, View.missing, countP_singleton, countP_singleton, hm.grows.slot_eq_of_notMem hp]

/-- The last two tiers. -/
lemma bmapDouble_costs {k l : Fin 256} (hk : index / 256 = k) (hl : index % 256 = l) :
    Costs (img.view.missing ino (Slot.leaf k l).path) 0 img
      ((bmapDouble img ino index).map Prod.snd) := by
  rw [bmapDouble, hk, hl]
  change Costs (img.view.missing ino ([Slot.double] ++ ([.middle k] ++ [.leaf k l])))
    (0 + 0) img _
  rw [missing_append, missing_append]
  refine (fillPtr_leaves h hi .doubleIndirect).bind_costs fun img₁ hfill => ?_
  obtain ⟨hm1, hptr⟩ := hfill
  have h1 := hm1.ready h
  have hi1 := (hm1.grows.live_iff ino).mpr hi
  rw [← hm1.missing_eq (p := .middle k) (by simp [PtrField.slot]),
    ← hm1.missing_eq (p := .leaf k l) (by simp [PtrField.slot])]
  refine (tableSlot_leaves h1 hi1 (p := .middle k) (q := .double) rfl rfl hptr).bind_costs
    (m := 0) fun r htable => ?_
  obtain ⟨hm2, hslot2, hmid0⟩ := htable
  rw [← hm2.missing_eq (p := .leaf k l) (by simp)]
  exact (tableSlot_leaves (hm2.ready h1) ((hm2.grows.live_iff ino).mpr hi1)
    (p := .leaf k l) (q := .middle k) rfl hslot2 hmid0).costs

/-- `bmap` takes a block for every slot that is empty on the way. -/
theorem bmap_costs (hlt : index < maxFileBlocks) :
    Costs (img.view.missing ino (Slot.pathOf index)) 0 img ((bmap img ino index).map Prod.snd) := by
  have hmax : maxFileBlocks = 10 + 256 + 256 * 256 := rfl
  rw [bmap, Slot.pathOf, Slot.ofIndex]
  by_cases h10 : index < 10
  · rw [dif_pos h10, dif_pos h10, Option.map_map]
    exact (fillPtr_leaves h hi (.direct ⟨index, h10⟩)).costs
  rw [dif_neg h10, dif_neg h10]
  by_cases h256 : index - 10 < 256
  · rw [if_pos h256, dif_pos h256]
    change Costs (img.view.missing ino ([Slot.indirect] ++ [.single ⟨index - 10, h256⟩])) (0 + 0)
      img _
    rw [missing_append]
    refine (fillPtr_leaves h hi .indirect).bind_costs fun img₁ hfill => ?_
    obtain ⟨hm1, hptr⟩ := hfill
    rw [← hm1.missing_eq (p := .single ⟨index - 10, h256⟩) (by simp [PtrField.slot])]
    exact (tableSlot_leaves (hm1.ready h) ((hm1.grows.live_iff ino).mpr hi)
      (p := .single ⟨index - 10, h256⟩) (q := .indirect) rfl rfl hptr).costs
  rw [if_neg h256, dif_neg h256, if_neg (by omega), dif_pos (by omega)]
  exact bmapDouble_costs h hi rfl rfl

end BlockMap

/-! ## Files without gaps -/

/-- The first block of a file that has the slot on its way. -/
def firstBlock : Slot → ℕ
  | .direct i => i
  | .indirect => 10
  | .double => 266
  | .single k => 10 + k
  | .middle k => 266 + 256 * k
  | .leaf k l => 266 + 256 * k + l

/-- The inode holds its first `n` blocks, the pointer blocks on the way to them, and no other. -/
def Tight (c : View) (i n : ℕ) : Prop := ∀ p, c.slot i p ≠ 0 ↔ firstBlock p < n

/-- How many blocks block `n` of a file takes when it is the next one: itself, and the pointer
blocks that start with it. -/
def growth (n : ℕ) : ℕ :=
  1 + (if n = 10 then 1 else 0) + (if n = 266 then 1 else 0) +
    if 266 ≤ n ∧ (n - 266) % 256 = 0 then 1 else 0

/-- How many blocks a file of `n` blocks takes. -/
def blocksFor : ℕ → ℕ
  | 0 => 0
  | n + 1 => blocksFor n + growth n

/-- How many blocks a file of so many bytes takes. -/
def fileBlocks (size : ℕ) : ℕ := blocksFor ((size + 1023) / 1024)

lemma blocksFor_mono : Monotone blocksFor := monotone_nat_of_le_succ fun _ => Nat.le_add_right ..

variable {n : ℕ}

lemma fileBlocks_mono {m : ℕ} (h : m ≤ n) : fileBlocks m ≤ fileBlocks n :=
  blocksFor_mono (by omega)

/-- The count in closed form. -/
lemma blocksFor_eq (n : ℕ) : blocksFor n =
    n + (if 10 < n then 1 else 0) + if 266 < n then 1 + (n - 266 + 255) / 256 else 0 := by
  induction n with
  | zero => rfl
  | succ n ih =>
    rw [blocksFor, ih, growth]
    split_ifs <;> omega

/-- The slots on the way to block `n` are those that some earlier block needs, and those that start
with it. -/
lemma mem_pathOf (hn : n < maxFileBlocks) (q : Slot) :
    (q ∈ Slot.pathOf n → firstBlock q ≤ n) ∧ (firstBlock q = n → q ∈ Slot.pathOf n) := by
  have hmax : maxFileBlocks = 65802 := rfl
  rw [Slot.pathOf, Slot.ofIndex]
  split_ifs with h10 h256 hbig
  · cases q <;> simp [Slot.path, firstBlock, Fin.ext_iff] <;> omega
  · cases q <;> simp [Slot.path, firstBlock, Fin.ext_iff] <;> omega
  · cases q <;> simp [Slot.path, firstBlock, Fin.ext_iff] <;> omega
  · omega

namespace Tight

variable {c c' : View} {i n : ℕ} (h : Tight c i n)

include h

lemma missing_singleton (p : Slot) : c.missing i [p] = if firstBlock p < n then 0 else 1 := by
  split_ifs with hp
  · exact missing_singleton_of_ne ((h p).mpr hp)
  · exact missing_singleton_of_eq (not_not.mp fun hne => hp ((h p).mp hne))

/-- A block that is there costs nothing. -/
lemma missing_eq_zero (hlt : index < n) (hmax : index < maxFileBlocks) :
    c.missing i (Slot.pathOf index) = 0 := by
  rw [View.missing, countP_eq_zero]
  intro q hq
  have hfirst := (mem_pathOf hmax q).1 hq
  simpa using (h q).mpr (by omega)

/-- The next block costs what it needs on the way. -/
lemma missing_eq_growth (hmax : n < maxFileBlocks) : c.missing i (Slot.pathOf n) = growth n := by
  have hblocks : maxFileBlocks = 65802 := rfl
  rw [Slot.pathOf, Slot.ofIndex]
  by_cases h10 : n < 10
  · rw [dif_pos h10]
    change c.missing i [Slot.direct ⟨n, h10⟩] = _
    rw [h.missing_singleton, firstBlock, growth]
    dsimp only
    split_ifs <;> omega
  rw [dif_neg h10]
  by_cases h256 : n - 10 < 256
  · rw [dif_pos h256]
    change c.missing i ([Slot.indirect] ++ [.single ⟨n - 10, h256⟩]) = _
    rw [missing_append, h.missing_singleton, h.missing_singleton, firstBlock, firstBlock, growth]
    dsimp only
    split_ifs <;> omega
  · rw [dif_neg h256, dif_pos (by omega)]
    change c.missing i ([Slot.double] ++ ([.middle _] ++ [.leaf _ _])) = _
    rw [missing_append, missing_append, h.missing_singleton, h.missing_singleton,
      h.missing_singleton, firstBlock, firstBlock, firstBlock, growth]
    dsimp only
    split_ifs <;> omega

/-- After the next block is there, one more is. -/
lemma grown (hmax : n < maxFileBlocks) (hg : Grows i (Slot.pathOf n) c c')
    (hall : ∀ q ∈ Slot.pathOf n, c'.slot i q ≠ 0) : Tight c' i (n + 1) := by
  intro q
  obtain ⟨hle, hself⟩ := mem_pathOf hmax q
  by_cases hq : q ∈ Slot.pathOf n
  · exact iff_of_true (hall q hq) (lt_succ_of_le (hle hq))
  · have hne : firstBlock q ≠ n := fun heq => hq (hself heq)
    rw [hg.slot_eq_of_notMem hq, h q]
    omega

omit h in
lemma congr (h : Tight c i n) (hslot : ∀ p, c'.slot i p = c.slot i p) : Tight c' i n := by
  intro p
  rw [hslot]
  exact h p

end Tight

/-! ## Files -/

/-- The file holds exactly the blocks of its size. -/
def Packed (c : View) (i : ℕ) : Prop := Tight c i (((c.inodes i).size + 1023) / 1024)

section Files

variable {img : Image} (h : Ready img) {ino : ℕ} (hi : img.view.Live ino)

include h hi

/-- `bmap` of a block that is there, or is the next one. -/
lemma bmap_tight (ht : Tight img.view ino n) (hle : index ≤ n) (hmax : index < maxFileBlocks) :
    Leaves (blocksFor (max n (index + 1)) - blocksFor n) 0 img Prod.snd (bmap img ino index) fun r =>
      Tight r.2.view ino (max n (index + 1)) ∧ ∃ p, Slot.ofIndex index = some p ∧
        Maps ino p.path img r.2 ∧ r.2.view.slot ino p = r.1 ∧ r.1 ≠ 0 := by
  have hcost := bmap_costs h hi hmax
  have hspec := fun r (hr : bmap img ino index = some r) => bmap_spec h.storable h.consistent hi
    (b := r.1) hr
  rcases lt_or_eq_of_le hle with hlt | rfl
  · rw [ht.missing_eq_zero hlt hmax] at hcost
    rw [max_eq_left (Nat.succ_le_of_lt hlt), Nat.sub_self]
    refine ⟨hcost, fun r hr => ⟨?_, hspec r hr⟩⟩
    obtain ⟨p, hp, hm, -⟩ := hspec r hr
    -- nothing is filled, as nothing is missing
    refine ht.congr fun q => ?_
    by_cases hq : q ∈ p.path
    · have hne : img.view.slot ino q ≠ 0 := by
        rw [ht q]
        have := (mem_pathOf hmax q).1 (Slot.pathOf_eq hp ▸ hq)
        omega
      exact (hm.grows.touches h.consistent).slot_kept q hne
    · exact hm.grows.slot_eq_of_notMem hq
  · rw [ht.missing_eq_growth hmax] at hcost
    rw [max_eq_right (Nat.le_succ index), blocksFor, Nat.add_sub_cancel_left]
    refine ⟨hcost, fun r hr => ⟨?_, hspec r hr⟩⟩
    obtain ⟨p, hp, hm, hslot, hb0⟩ := hspec r hr
    rw [← Slot.pathOf_eq hp] at hm
    refine ht.grown hmax hm.grows fun q hq => ?_
    have hzero := View.missing_path_eq_zero_iff.mpr (hslot.trans_ne hb0)
    rw [View.missing, countP_eq_zero] at hzero
    simpa using hzero q (Slot.pathOf_eq hp ▸ hq)

/-- The loop of `file_write`, at the end of what the file holds. -/
lemma writeLoop_costs {offset len : ℕ} (hmax : offset + len ≤ maxFileSize) (buf : Buf)
    (fuel : ℕ) {done : ℕ} (hdone : done ≤ len) (hfuel : len ≤ done + fuel)
    (ht : Tight img.view ino ((offset + done + 1023) / 1024)) :
    Leaves (fileBlocks (offset + len) - fileBlocks (offset + done)) 0 img id
      (writeLoop ino offset buf len fuel img done) fun img' =>
        Tight img'.view ino ((offset + len + 1023) / 1024) := by
  have hsize := maxFileSize_eq
  have hblocks : maxFileBlocks = 65802 := rfl
  induction fuel generalizing img done with
  | zero =>
    obtain rfl : done = len := by omega
    rw [writeLoop, Nat.sub_self]
    exact .refl ht
  | succ fuel ih =>
    rw [writeLoop]
    by_cases hle : len ≤ done
    · obtain rfl : done = len := by omega
      rw [if_pos hle, Nat.sub_self]
      exact .refl ht
    rw [if_neg hle, mod_eq_of_lt (show offset + done < 4294967296 by omega)]
    dsimp only
    generalize hch : min (1024 - (offset + done) % 1024) (len - done) = chunk
    have hnext : max ((offset + done + 1023) / 1024) ((offset + done) / 1024 + 1) =
        (offset + (done + chunk) + 1023) / 1024 := by omega
    have hmono := fileBlocks_mono (show offset + done ≤ offset + (done + chunk) by omega)
    have hmono' := fileBlocks_mono (show offset + (done + chunk) ≤ offset + len by omega)
    have hsum : fileBlocks (offset + len) - fileBlocks (offset + done) =
        (fileBlocks (offset + (done + chunk)) - fileBlocks (offset + done)) +
          (fileBlocks (offset + len) - fileBlocks (offset + (done + chunk))) := by omega
    have hindex : (offset + done) / 1024 ≤ (offset + done + 1023) / 1024 := by omega
    obtain ⟨hcost, hdone⟩ := bmap_tight h hi ht hindex (by omega)
    rw [hnext] at hcost hdone
    rw [hsum]
    cases hbmap : bmap img ino ((offset + done) / 1024) with
    | none =>
      rw [hbmap] at hcost
      exact ⟨hcost.none_mono (Nat.le_add_right ..) le_rfl, fun img' heq => by cases heq⟩
    | some r =>
      rw [hbmap] at hcost
      obtain ⟨ht1, p, hp, hm, hslot, hb0⟩ := hdone r hbmap
      obtain ⟨b, img₁⟩ := r
      obtain rfl : img₁.view.slot ino p = b := hslot
      have h1 := hm.ready h
      have hi1 := (hm.grows.live_iff ino).mpr hi
      have hnot := Slot.ofIndex_not_isTable hp
      dsimp only
      rw [if_pos (h1.inMemory hi1 hb0)]
      generalize (img₁.view.data (img₁.view.slot ino p)).copy ((offset + done) % 1024)
        (buf.drop done) chunk = block
      have hk₂ := Keeps.setData h1.storable (img₁.view.slot ino p) block
      have ht2 := Touches.setData h1.consistent hi1 hnot hb0 block
      have hrest := ih ⟨hk₂.storable, ht2.consistent, hk₂.isPartial h1.isPartial⟩
        ((ht2.live_iff ino).mpr hi1) (by omega) (by omega)
        (ht1.congr (View.slot_setData h1.consistent hi1 hnot hb0 block hi1))
      exact ⟨hcost.after (n := 0) (m := 0) (hrest.costs.congr rfl rfl), hrest.holds⟩

/-- `file_write` at the end of a file. -/
theorem fileWrite_costs (hpacked : Packed img.view ino) {len : ℕ}
    (hmax : (img.view.inodes ino).size + len ≤ maxFileSize) (buf : Buf) :
    Leaves (fileBlocks ((img.view.inodes ino).size + len) - fileBlocks (img.view.inodes ino).size) 0
      img id (fileWrite img ino (img.view.inodes ino).size buf len) fun img' =>
        Packed img'.view ino ∧ Keeps img img' ∧ Touches ino img.view img'.view ∧
          (img'.view.inodes ino).size = (img.view.inodes ino).size + len := by
  have hsize := maxFileSize_eq
  have hloop := writeLoop_costs h hi hmax buf len (zero_le len) (by omega) hpacked
  refine ⟨(hloop.map (Q := fun _ => True) ?_ fun _ _ => trivial).costs, fun img' heq => ?_⟩
  · intro img₁
    dsimp only [id]
    split <;> exact ⟨rfl, rfl⟩
  obtain ⟨hw, hsize'⟩ := fileWrite_spec h.storable h.consistent hi (by omega) buf heq
  rw [max_eq_right (Nat.le_add_right ..)] at hsize'
  refine ⟨?_, hw.keeps, hw.touches, hsize'⟩
  rw [Packed, hsize']
  obtain ⟨img₁, hdone, rfl⟩ := map_eq_some_iff.mp heq
  -- the new size leaves the slots alone
  refine (hloop.holds img₁ hdone).congr fun p => ?_
  split
  · exact View.slot_stamp img₁.view ino _ (img₁.view.inodes ino).mtime ino p
  · rfl

/-- `dir_add`. -/
theorem dirAdd_costs (hpacked : Packed img.view ino)
    (hmax : (img.view.inodes ino).size + 32 ≤ maxFileSize) {name : Name}
    (hname : name.length ≤ nameMax) (i : ℕ) :
    Leaves (fileBlocks ((img.view.inodes ino).size + 32) - fileBlocks (img.view.inodes ino).size) 0
      img id (dirAdd img ino name i) fun img' => Packed img'.view ino ∧ Keeps img img' ∧
        Touches ino img.view img'.view ∧
        (img'.view.inodes ino).size = (img.view.inodes ino).size + 32 := by
  rw [dirAdd, if_neg (not_lt.mpr hname)]
  exact fileWrite_costs h hi hpacked hmax _

end Files

/-! ## New nodes -/

/-- The file of inode `j` is the same, down to its blocks. -/
structure Same (c c' : View) (j : ℕ) : Prop where
  agree : Agree c c' j
  slot_eq : ∀ p, c'.slot j p = c.slot j p

variable {c' : View} {j : ℕ}

lemma Same.trans {c'' : View} (h : Same c c' j) (h' : Same c' c'' j) : Same c c'' j :=
  ⟨h.agree.trans h'.agree, fun p => (h'.slot_eq p).trans (h.slot_eq p)⟩

lemma Same.packed (h : Same c c' j) (hp : Packed c j) : Packed c' j := by
  rw [Packed, h.agree.size_eq]
  exact Tight.congr hp h.slot_eq

variable {i : ℕ}

lemma Same.of_touches (h : Touches i c c') (hj : j ≠ i) (hl : c.Live j) : Same c c' j :=
  ⟨h.agree hj hl, fun p => h.slot_other j p hj hl⟩

variable {type : ℕ} {img'' : Image}

lemma Same.of_allocs (h : Allocs c c' i type) (hl : c.Live j) : Same c c' j := by
  have hj : j ≠ i := by
    rintro rfl
    exact h.fresh hl
  exact ⟨h.agree j hj, fun p => h.slot_eq j p hj⟩

lemma Ready.of_touches (h : Ready img) (hk : Keeps img img')
    (ht : Touches i img.view img'.view) : Ready img' :=
  ⟨hk.storable, ht.consistent, hk.isPartial h.isPartial⟩

lemma Ready.of_allocs (h : Ready img) (hk : Keeps img img')
    (ha : Allocs img.view img'.view i type) : Ready img' :=
  ⟨hk.storable, ha.consistent, hk.isPartial h.isPartial⟩

/-- A new inode is an empty file. -/
lemma Allocs.packed (h : Allocs c c' i type) : Packed c' i := by
  intro p
  rw [h.size_eq]
  exact iff_of_false (not_not.mpr (View.slot_bare h.bare p)) (not_lt_zero _)

/-- `inode_alloc` takes one inode. -/
lemma inodeAlloc_costs (h : Ready img) (type : ℕ) :
    Costs 0 1 img ((inodeAlloc img type).map Prod.snd) := by
  have hroot : rootIno = 1 := rfl
  have hcount := h.consistent.freeInodes_eq
  rw [inodeAlloc]
  cases hfind : (range' rootIno (img.view.totalInodes - rootIno)).find?
      fun i => (img.view.inodes i).type = typeFree with
  | none =>
    have hzero : img.view.freeInodes = 0 := by
      rw [hcount, Finset.card_eq_zero, filter_eq_empty_iff]
      intro i hi
      rw [mem_Ico] at hi
      simpa using find?_eq_none.mp hfind i (mem_range'_1.mpr ⟨by omega, by omega⟩)
    exact .inr (by omega)
  | some i =>
    have hrange := mem_range'_1.mp (mem_of_find?_eq_some hfind)
    have hpos : 0 < img.view.freeInodes := by
      rw [hcount, Finset.card_pos]
      refine ⟨i, mem_filter.mpr ⟨mem_Ico.mpr ⟨by omega, by omega⟩, ?_⟩⟩
      simpa using find?_some hfind
    refine ⟨rfl, ?_⟩
    change dec32 img.view.freeInodes + 1 = img.view.freeInodes
    rw [dec32_of_pos hpos]
    omega

lemma inodeAlloc_leaves (h : Ready img) (type : ℕ) (hlt : type < 65536)
    (htype : type ≠ typeFree) : Leaves 0 1 img Prod.snd (inodeAlloc img type) fun r =>
      inodeAlloc img type = some r ∧ Keeps img r.2 ∧ Allocs img.view r.2.view r.1 type :=
  ⟨inodeAlloc_costs h type, fun r halloc => ⟨halloc, inodeAlloc_spec h.storable h.consistent hlt
    htype (i := r.1) halloc⟩⟩

/-- The two dots take one block. -/
lemma addDots_costs (h : Ready img) (hi : img.view.Live i) (hpacked : Packed img.view i)
    (hsize : (img.view.inodes i).size = 0) (d : ℕ) :
    Leaves (fileBlocks 64) 0 img id (addDots img i d) fun img' => Packed img'.view i ∧
      Keeps img img' ∧ Touches i img.view img'.view ∧ (img'.view.inodes i).size = 64 := by
  have hmax := maxFileSize_eq
  have hdot := dirAdd_costs h hi hpacked (by omega) (show dot.length ≤ nameMax by decide) i
  rw [hsize] at hdot
  refine hdot.bind (l := fileBlocks 64 - fileBlocks 32) (m := 0) fun img₁ hdone => ?_
  obtain ⟨hpacked1, hk₁, ht1, hsize1⟩ := hdone
  have hdotDot := dirAdd_costs (h.of_touches hk₁ ht1) ((ht1.live_iff i).mpr hi) hpacked1 (by omega)
    (show dotDot.length ≤ nameMax by decide) d
  rw [hsize1] at hdotDot
  refine hdotDot.mono fun img' hdone => ?_
  obtain ⟨hpacked', hk₂, ht2, hsize'⟩ := hdone
  exact ⟨hpacked', hk₁.trans hk₂, ht1.trans ht2, hsize'⟩

/-- What entering a node into `parent` does to the rest: nothing but that `parent` grows. -/
structure Entered (parent : ℕ) (entries : ℕ) (img img' : Image) : Prop where
  /-- What the count rests on holds again. -/
  ready : Ready img'
  /-- No inode goes. -/
  live : ∀ j, img.view.Live j → img'.view.Live j
  /-- Every other inode stays. -/
  same : ∀ j, img.view.Live j → j ≠ parent → Same img.view img'.view j
  /-- The directory has no hole. -/
  packed : Packed img'.view parent
  type_eq : (img'.view.inodes parent).type = (img.view.inodes parent).type
  /-- It grows by its entries. -/
  size_eq : (img'.view.inodes parent).size = (img.view.inodes parent).size + 32 * entries

lemma Entered.trans {parent m : ℕ} (h : Entered parent m img img')
    (h' : Entered parent n img' img'') : Entered parent (m + n) img img'' where
  ready := h'.ready
  live j hj := h'.live j (h.live j hj)
  same j hj hne := (h.same j hj hne).trans (h'.same j (h.live j hj) hne)
  packed := h'.packed
  type_eq := h'.type_eq.trans h.type_eq
  size_eq := by
    rw [h'.size_eq, h.size_eq]
    omega

/-- What is entered into a new directory is not entered into its parent. -/
lemma Entered.fill {parent m : ℕ} (h : Entered parent m img img') (hp : img.view.Live parent)
    (hi : ¬ img.view.Live i) (h' : Entered i n img' img'') :
    Entered parent m img img'' := by
  have hne : ∀ j, img.view.Live j → j ≠ i := by
    rintro j hj rfl
    exact hi hj
  have hparent := h'.same parent (h.live parent hp) (hne parent hp)
  refine ⟨h'.ready, fun j hj => h'.live j (h.live j hj), fun j hj hjp => ?_,
    hparent.packed h.packed, hparent.agree.type_eq.trans h.type_eq, ?_⟩
  · exact (h.same j hj hjp).trans (h'.same j (h.live j hj) (hne j hj))
  · rw [hparent.agree.size_eq, h.size_eq]

section Create

variable {img : Image} (h : Ready img) {parent : ℕ} (hp : img.view.Live parent)
  (hpacked : Packed img.view parent) (hmax : (img.view.inodes parent).size + 32 ≤ maxFileSize)
  {name : Name} (hname : name.length ≤ nameMax)

include h hp hpacked hmax hname

section New

variable {img₁ img₂ : Image} (ha : Allocs img.view img₁.view i type) (hk₁ : Keeps img img₁)
  (ht : Touches i img₁.view img₂.view) (hk₂ : Keeps img₁ img₂)

include ha hk₁ ht hk₂

omit hp hpacked hmax hname in
/-- A node that is complete but for its name leaves the others as they were. -/
lemma Ready.of_new :
    Ready img₂ ∧ img₂.view.Live i ∧ ∀ j, img.view.Live j → j ≠ i ∧ img₂.view.Live j ∧
      Same img.view img₂.view j := by
  refine ⟨(h.of_allocs hk₁ ha).of_touches hk₂ ht, (ht.live_iff i).mpr ha.live, fun j hj => ?_⟩
  have hji : j ≠ i := by
    rintro rfl
    exact ha.fresh hj
  have hj1 := (ha.live_iff j).mpr (.inl hj)
  exact ⟨hji, (ht.live_iff j).mpr hj1, (Same.of_allocs ha hj).trans (.of_touches ht hji hj1)⟩

/-- A node is complete but for its name; then the name is added to its parent. -/
lemma enter_costs :
    Leaves (fileBlocks ((img.view.inodes parent).size + 32) -
        fileBlocks (img.view.inodes parent).size) 0 img₂ id (dirAdd img₂ parent name i) fun img' =>
      Entered parent 1 img img' ∧ img'.view.Live i ∧ Same img₂.view img'.view i := by
  obtain ⟨h2, hi2, hold⟩ := h.of_new ha hk₁ ht hk₂
  obtain ⟨hne, hp2, hparent⟩ := hold parent hp
  have hcosts := dirAdd_costs h2 hp2 (hparent.packed hpacked)
    (by rw [hparent.agree.size_eq]; exact hmax) hname i
  rw [hparent.agree.size_eq] at hcosts
  refine hcosts.mono fun img' hdone => ?_
  obtain ⟨hpacked', hk3, ht3, hsize'⟩ := hdone
  refine ⟨⟨h2.of_touches hk3 ht3, fun j hj => (ht3.live_iff j).mpr (hold j hj).2.1, ?_, hpacked',
    ht3.type_eq.trans hparent.agree.type_eq, ?_⟩,
    (ht3.live_iff i).mpr hi2, .of_touches ht3 hne.symm hi2⟩
  · intro j hj hjp
    obtain ⟨-, hj2, hsame⟩ := hold j hj
    exact hsame.trans (.of_touches ht3 hjp hj2)
  · rw [hsize', mul_one]

end New

/-- `make_dir`. -/
lemma makeDir_costs :
    Leaves (fileBlocks 64 + (fileBlocks ((img.view.inodes parent).size + 32) -
        fileBlocks (img.view.inodes parent).size)) 1 img Prod.snd (makeDir img parent name) fun r =>
      Entered parent 1 img r.2 ∧ ¬ img.view.Live r.1 ∧ r.2.view.Live r.1 ∧ Packed r.2.view r.1 ∧
        (r.2.view.inodes r.1).size = 64 := by
  rw [makeDir, ← zero_add (fileBlocks 64 + _)]
  refine (inodeAlloc_leaves h typeDir (by decide) (by decide)).bind (m := 0)
    fun r hnew => ?_
  obtain ⟨-, hk₁, ha⟩ := hnew
  refine (addDots_costs (h.of_allocs hk₁ ha) ha.live (Allocs.packed ha) ha.size_eq parent).bind
    (m := 0) fun img₂ hdots => ?_
  obtain ⟨hpacked2, hk₂, ht2, hsize2⟩ := hdots
  refine (enter_costs h hp hpacked hmax hname ha hk₁ ht2 hk₂).map (fun _ => ⟨rfl, rfl⟩)
    fun img' hdone => ?_
  obtain ⟨hent, hlive, hsame⟩ := hdone
  exact ⟨hent, ha.fresh, hlive, hsame.packed hpacked2, hsame.agree.size_eq.trans hsize2⟩

/-- `add_host_file`. -/
lemma addHostFile_costs {data : List UInt8} (hdata : data.length ≤ maxFileSize)
    (mtime : Option ℕ) :
    Leaves (fileBlocks data.length + (fileBlocks ((img.view.inodes parent).size + 32) -
        fileBlocks (img.view.inodes parent).size)) 1 img id
      (addHostFile img parent name data mtime) (Entered parent 1 img) := by
  have hsize := maxFileSize_eq
  have hlt : data.length < 4294967296 := by omega
  rw [addHostFile, mod_eq_of_lt hlt, if_neg (not_lt.mpr hdata),
    ← zero_add (fileBlocks data.length + _)]
  refine (inodeAlloc_leaves h typeFile (by decide) (by decide)).bind (m := 0)
    fun r hnew => ?_
  obtain ⟨-, hk₁, ha⟩ := hnew
  have h1 := h.of_allocs hk₁ ha
  have hfit : (r.2.view.inodes r.1).size + data.length ≤ maxFileSize := by
    rw [ha.size_eq]
    omega
  -- the contents, and then size and time
  have hwrite := fileWrite_costs h1 ha.live (Allocs.packed ha) hfit (Buf.ofList data)
  rw [ha.size_eq, zero_add] at hwrite
  refine hwrite.bind (m := 0) fun img₂ hw => ?_
  obtain ⟨hk3, ht3⟩ := stamp_spec hlt mtime hw.2.1 hw.2.2.1
  have hlast := enter_costs h hp hpacked hmax hname ha hk₁ ht3 hk3
  exact ⟨hlast.costs.congr rfl rfl, fun img' heq => (hlast.holds img' heq).1⟩

end Create

/-! ## Staging directories -/

namespace HostDir

/-- How many blocks the nodes of a directory take, and those below them, without the directory
itself. -/
def inside : HostDir → ℕ
  | .nil => 0
  | .file _ data _ rest => fileBlocks data.length + rest.inside
  | .dir _ sub rest => fileBlocks (32 * (sub.names.length + 2)) + sub.inside + rest.inside

/-- How many blocks a staging directory takes. -/
def blocks (h : HostDir) : ℕ := fileBlocks (32 * (h.names.length + 2)) + h.inside

/-- Every name fits an entry, and every file and directory below is within the largest size of a
file. -/
def Within : HostDir → Prop
  | .nil => True
  | .file name data _ rest => name.length ≤ nameMax ∧ data.length ≤ maxFileSize ∧ rest.Within
  | .dir name sub rest =>
    name.length ≤ nameMax ∧ 32 * (sub.names.length + 2) ≤ maxFileSize ∧ sub.Within ∧ rest.Within

end HostDir

/-- A directory grows by one entry, and then by the others. -/
lemma fileBlocks_succ (size n : ℕ) : fileBlocks (size + 32 * (n + 1)) - fileBlocks size =
    (fileBlocks (size + 32) - fileBlocks size) +
      (fileBlocks (size + 32 * 1 + 32 * n) - fileBlocks (size + 32 * 1)) := by
  have hmono := fileBlocks_mono (Nat.le_add_right size 32)
  have hmono' := fileBlocks_mono (Nat.le_add_right (size + 32) (32 * n))
  rw [show size + 32 * (n + 1) = size + 32 + 32 * n by omega, mul_one]
  omega

/-- `addTree` takes what its directory takes, and the growth of the directory that is filled. -/
theorem addTree_costs (h : HostDir) (hin : h.Within) (hr : Ready img) {parent : ℕ}
    (hp : img.view.Live parent) (hpacked : Packed img.view parent)
    (hmax : (img.view.inodes parent).size + 32 * h.names.length ≤ maxFileSize) :
    Leaves (h.inside + (fileBlocks ((img.view.inodes parent).size + 32 * h.names.length) -
        fileBlocks (img.view.inodes parent).size)) h.nodes img id (addTree img parent h)
      (Entered parent h.names.length img) := by
  induction h generalizing img parent with
  | nil =>
    rw [HostDir.names, length_nil, Nat.mul_zero, Nat.add_zero, Nat.sub_self]
    refine (Costs.refl img).leaves fun img' heq => ?_
    cases heq
    exact ⟨hr, fun _ hj => hj, fun _ _ _ => ⟨.refl _ _, fun _ => rfl⟩, hpacked, rfl, rfl⟩
  | file name data mtime rest ih =>
    obtain ⟨hname, hdata, hrest⟩ := hin
    rw [HostDir.names, length_cons] at hmax ⊢
    have hall := (addHostFile_costs hr hp hpacked (by omega) hname hdata mtime).bind
      fun img₁ hent => by
        have hsize := hent.size_eq
        have hih := ih hrest hent.ready (hent.live parent hp) hent.packed (by omega)
        rw [hsize] at hih
        exact hih.mono fun img' hent' => hent.trans hent'
    rw [add_comm 1 rest.names.length] at hall
    refine hall.of_eq ?_
    rw [fileBlocks_succ, HostDir.inside]
    omega
  | dir name sub rest ihsub ih =>
    obtain ⟨hname, hlarge, hsub, hrest⟩ := hin
    rw [HostDir.names, length_cons] at hmax ⊢
    have hall := (makeDir_costs hr hp hpacked (by omega) hname).bind fun r hdone => by
      obtain ⟨hent1, hfresh, hi, hpackedi, hsizei⟩ := hdone
      -- the new directory is filled first
      have hfill := ihsub hsub hent1.ready hi hpackedi (by omega)
      rw [hsizei] at hfill
      exact hfill.bind fun img₂ hent2 => by
        have hent := hent1.fill hp hfresh hent2
        have hsize := hent.size_eq
        have hih := ih hrest hent.ready (hent.live parent hp) hent.packed (by omega)
        rw [hsize] at hih
        exact hih.mono fun img' hent' => hent.trans hent'
    rw [add_comm 1 rest.names.length, ← add_assoc 1] at hall
    have hmono := fileBlocks_mono (Nat.le_add_right 64 (32 * sub.names.length))
    refine hall.of_eq ?_
    rw [fileBlocks_succ, HostDir.inside,
      show 32 * (sub.names.length + 2) = 64 + 32 * sub.names.length by omega]
    omega

/-! ## The whole volume -/

section Volume

variable {n : ℕ} (hmin : 1024 ≤ n) (hmax : n ≤ 2147483648)

include hmin hmax

lemma emptyImage_ready {buildTime : ℕ} (ht : buildTime < 4294967296) :
    Ready (emptyImage n buildTime) := by
  have hg := layout_geometry hmin hmax 0 0
  refine ⟨emptyImage_storable ht, emptyImage_consistent hmin hmax buildTime, ⟨?_, ?_⟩⟩
  · exact le_min (Nat.le_add_right ..) hg.data_le
  · exact min_le_right ..

omit hmin hmax in
lemma layout_freeBlocks : (layout n).freeBlocks = n - (layout n).dataStart := rfl

/-- An empty image has room in memory, as far as there is a volume. -/
lemma emptyImage_room (buildTime : ℕ) :
    (emptyImage n buildTime).room = min dataRoomBlocks (layout n).freeBlocks := by
  have hdata : (layout n).dataStart ≤ n := (layout_geometry hmin hmax 0 0).data_le
  have hfree := layout_freeBlocks (n := n)
  simp only [Image.room, emptyImage]
  omega

/-- The root takes one block and one inode. -/
lemma makeRoot_costs {buildTime : ℕ} (ht : buildTime < 4294967296) :
    Leaves (fileBlocks 64) 1 (emptyImage n buildTime) id (makeRoot (emptyImage n buildTime))
      fun img => Ready img ∧ img.view.Live rootIno ∧ Packed img.view rootIno ∧
        (img.view.inodes rootIno).size = 64 := by
  have hr := emptyImage_ready hmin hmax ht
  have hroot : ∀ r, inodeAlloc (emptyImage n buildTime) typeDir = some r → r.1 = rootIno := by
    intro r halloc
    rw [inodeAlloc] at halloc
    cases htotal : (emptyImage n buildTime).view.totalInodes - rootIno with
    | zero =>
      rw [htotal] at halloc
      cases halloc
    | succ k =>
      -- every inode is free, so the first one is taken
      rw [htotal, range'_succ, find?_cons] at halloc
      cases halloc
      rfl
  rw [makeRoot, ← zero_add (fileBlocks 64)]
  refine (inodeAlloc_leaves hr typeDir (by decide) (by decide)).bind (m := 0)
    fun r hnew => ?_
  obtain ⟨root, img₁⟩ := r
  obtain ⟨halloc, hk, ha⟩ := hnew
  obtain rfl : root = rootIno := hroot _ halloc
  dsimp only
  rw [if_neg (not_not.mpr rfl)]
  have hr1 := hr.of_allocs hk ha
  refine (addDots_costs hr1 ha.live (Allocs.packed ha) ha.size_eq rootIno).mono fun img hdone => ?_
  obtain ⟨hpacked, hk', ht', hsize⟩ := hdone
  exact ⟨hr1.of_touches hk' ht', (ht'.live_iff rootIno).mpr ha.live, hpacked, hsize⟩

end Volume

/-- The staging directory fits a volume of so many MiB: every name, file and directory is within the
limits of the format, and there are as many free blocks and inodes as it takes. -/
structure HostDir.FitsImage (h : HostDir) (sizeMb : ℕ) : Prop where
  /-- Every name and every file is within the limits. -/
  within : h.Within
  /-- The root directory is no longer than a file may be. -/
  root_le : 32 * (h.names.length + 2) ≤ maxFileSize
  /-- There are blocks for all of it. -/
  blocks_le : h.blocks ≤ (layout (sizeMb * 1024)).freeBlocks
  /-- There are inodes for all of it, and for the root. -/
  nodes_le : 1 + h.nodes ≤ (layout (sizeMb * 1024)).freeInodes

/-- `mkwfs` finishes exactly if the staging directory takes no more blocks than it builds in
memory. -/
theorem mkwfs_isSome_iff {sizeMb : ℕ} (hpos : 1 ≤ sizeMb) (hsize : sizeMb ≤ 2097152) (time : ℕ)
    {staging : HostDir} (hfits : staging.FitsImage sizeMb) :
    (mkwfs sizeMb time staging).isSome ↔ staging.blocks ≤ dataRoomBlocks := by
  have hmin : 1024 ≤ sizeMb * 1024 := by omega
  have hmax : sizeMb * 1024 ≤ 2147483648 := by omega
  have ht : time % 4294967296 < 4294967296 := mod_lt _ (by norm_num)
  rw [mkwfs, if_neg (by omega), mod_eq_of_lt (show sizeMb * 1024 < 4294967296 by omega)]
  have hle := hfits.root_le
  have hall := (makeRoot_costs hmin hmax ht).bind fun img hroot => by
    obtain ⟨hr, hi, hpacked, hsize⟩ := hroot
    have hadd := addTree_costs staging hfits.within hr hi hpacked (by omega)
    rw [hsize] at hadd
    exact hadd.mono (R := fun _ => True) fun _ _ => trivial
  have hmono := fileBlocks_mono (Nat.le_add_right 64 (32 * staging.names.length))
  have hblocks : fileBlocks 64 + (staging.inside + (fileBlocks (64 + 32 * staging.names.length) -
      fileBlocks 64)) = staging.blocks := by
    rw [HostDir.blocks, show 32 * (staging.names.length + 2) = 64 + 32 * staging.names.length by
      omega]
    omega
  have hcosts := hall.costs
  rw [hblocks, Option.map_id] at hcosts
  rw [← id_eq (Option.bind _ _), hcosts.isSome_iff]
  have hinodes : (emptyImage (sizeMb * 1024) (time % 4294967296)).view.freeInodes =
    (layout (sizeMb * 1024)).freeInodes := by simp only [emptyImage]
  rw [emptyImage_room hmin hmax, hinodes]
  have := hfits.blocks_le
  have := hfits.nodes_le
  omega

end Wos.Mkwfs
