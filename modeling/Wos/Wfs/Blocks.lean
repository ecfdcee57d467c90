import Mathlib.Data.Fintype.Sigma
import Mathlib.Data.Fintype.Sum
import Mathlib.Order.Interval.Finset.Nat
import Mathlib.Tactic.DeriveFintype
import Wos.Base.Count
import Wos.Wfs.View

/-!
# The blocks of an inode and the consistency of a volume

An inode reaches its blocks through three tiers of pointers. A `Slot` names one place where a block
number can stand: a field of the inode, an entry of its indirect block, of its double-indirect
block, or of one of the middle blocks. `View.slot` reads a slot, and 0 there means that there is no
block.

`View.Consistent` is the allocation consistency of a volume: the slots of live inodes hold distinct
allocated data blocks, every allocated data block stands in one, and the counts are right. Its
preservation rests on one kind of step, `Fills`: a free block is put into an empty slot.

## Main definitions

* `Slot`, `View.slot`: where block numbers stand, and what stands there;
* `View.Live`, `View.Consistent`: allocation consistency;
* `Fills`: one slot of one inode receives a fresh block;
* `Slot.ofIndex`, `View.byteAt`: the contents of a file.

## Main results

* `Fills.consistent`, `Fills.byteAt_eq`: a filled slot keeps the volume consistent and changes no
  file's contents;
* `fills_field`, `fills_entry`: the two ways the driver fills a slot.
-/

namespace Wos.Wfs

open Finset View Option List

/-- A place where an inode can hold a block number. -/
inductive Slot
  /-- A direct pointer of the inode. -/
  | direct (i : Fin 10)
  /-- The pointer to the indirect block. -/
  | indirect
  /-- The pointer to the double-indirect block. -/
  | double
  /-- An entry of the indirect block. -/
  | single (k : Fin 256)
  /-- An entry of the double-indirect block, which names a middle block. -/
  | middle (k : Fin 256)
  /-- An entry of a middle block. -/
  | leaf (k l : Fin 256)
  deriving DecidableEq, Fintype

variable {p q : Slot}

namespace Slot

/-- The slot that names the pointer block this slot is an entry of. -/
def parent : Slot → Option Slot
  | direct _ => none
  | indirect => none
  | double => none
  | single _ => some indirect
  | middle _ => some double
  | leaf k _ => some (middle k)

/-- The index of the slot in its pointer block. -/
def index : Slot → ℕ
  | direct _ => 0
  | indirect => 0
  | double => 0
  | single k => k
  | middle k => k
  | leaf _ l => l

/-- The slot names a pointer block rather than a block of the file's contents. -/
def IsTable : Slot → Prop
  | direct _ => False
  | indirect => True
  | double => True
  | single _ => False
  | middle _ => True
  | leaf _ _ => False

lemma parent_isTable (h : p.parent = some q) : q.IsTable := by
  cases p <;> simp only [parent, reduceCtorEq, some.injEq] at h <;> subst h <;> trivial

/-- Slots of one pointer block differ in their index. -/
lemma eq_of_parent {p' : Slot} (h : p.parent = some q) (h' : p'.parent = some q)
    (hi : p.index = p'.index) : p = p' := by
  rw [← h] at h'
  cases p <;> cases p' <;>
    simp only [parent, reduceCtorEq, some.injEq, middle.injEq] at h' <;>
    simp_all [index, Fin.ext_iff, parent]

/-- Induction from the fields of the inode down through its pointer blocks. -/
lemma parent_induction {P : Slot → Prop} (root : ∀ p, p.parent = none → P p)
    (entry : ∀ p q, p.parent = some q → P q → P p) (p : Slot) : P p := by
  cases p with
  | direct i => exact root _ rfl
  | indirect => exact root _ rfl
  | double => exact root _ rfl
  | single k | middle k => exact entry _ _ rfl (root _ rfl)
  | leaf k l => exact entry _ _ rfl (entry _ _ rfl (root _ rfl))

/-- The slots on the way from the inode to a slot, the slot itself included. -/
def path : Slot → List Slot
  | direct i => [direct i]
  | indirect => [indirect]
  | double => [double]
  | single k => [indirect, single k]
  | middle k => [double, middle k]
  | leaf k l => [double, middle k, leaf k l]

lemma path_nodup (p : Slot) : p.path.Nodup := by
  cases p <;> simp [path]

lemma self_mem_path (p : Slot) : p ∈ p.path := by
  cases p <;> simp [path]

lemma parent_mem_path (h : p.parent = some q) : q ∈ p.path := by
  cases p <;> simp only [parent, reduceCtorEq, some.injEq] at h <;> subst h <;> simp [path]

/-- The slot that holds block `n` of a file. -/
def ofIndex (n : ℕ) : Option Slot :=
  if h : n < 10 then some (direct ⟨n, h⟩)
  else if h : n - 10 < 256 then some (single ⟨n - 10, h⟩)
  else if h : n - 10 - 256 < 256 * 256 then
    some (leaf ⟨(n - 10 - 256) / 256, by omega⟩ ⟨(n - 10 - 256) % 256, by omega⟩)
  else none

/-- The slots on the way to block `n` of a file. -/
def pathOf (n : ℕ) : List Slot := (ofIndex n).elim [] path

variable {n : ℕ}

lemma pathOf_eq (h : ofIndex n = some p) : pathOf n = p.path := by
  rw [pathOf, h]
  rfl

lemma ofIndex_isSome_iff : (ofIndex n).isSome ↔ n < maxFileBlocks := by
  unfold ofIndex maxFileBlocks
  split_ifs <;> simp <;> omega

lemma ofIndex_not_isTable (h : ofIndex n = some p) : ¬ p.IsTable := by
  unfold ofIndex at h
  split_ifs at h <;> simp only [some.injEq] at h <;> subst h <;> exact id

lemma ofIndex_inj {m : ℕ} (hm : ofIndex m = some p) (hn : ofIndex n = some p) : m = n := by
  unfold ofIndex at hm hn
  split_ifs at hm hn <;> simp only [some.injEq] at hm hn <;> subst hm <;>
    simp only [direct.injEq, single.injEq, leaf.injEq, Fin.mk.injEq, reduceCtorEq] at hn <;> omega

end Slot

variable {c : View} {i : ℕ}

namespace View

/-- Entry `k` of the pointer block `t`; there is none when `t` is 0. -/
def entry (c : View) (t k : ℕ) : ℕ := if t = 0 then 0 else (c.data t).word k

/-- The block number in a slot of an inode. -/
def slotIn (c : View) (n : Inode) : Slot → ℕ
  | .direct i => n.direct i
  | .indirect => n.indirect
  | .double => n.doubleIndirect
  | .single k => c.entry n.indirect k
  | .middle k => c.entry n.doubleIndirect k
  | .leaf k l => c.entry (c.entry n.doubleIndirect k) l

/-- The block number in a slot of the inode with the given number. -/
def slot (c : View) (i : ℕ) (p : Slot) : ℕ := c.slotIn (c.inodes i) p

lemma slotIn_parent (c : View) (n : Inode) (h : p.parent = some q) :
    c.slotIn n p = c.entry (c.slotIn n q) p.index := by
  cases p <;> simp only [Slot.parent, reduceCtorEq, some.injEq] at h <;> subst h <;> rfl

lemma slot_parent (c : View) (i : ℕ) (h : p.parent = some q) :
    c.slot i p = c.entry (c.slot i q) p.index := c.slotIn_parent _ h

/-- A slot below an empty one is empty. -/
lemma slot_eq_zero_of_parent (h : p.parent = some q) (hq : c.slot i q = 0) : c.slot i p = 0 := by
  rw [slot_parent c i h, entry, if_pos hq]

/-- The inode is in use. -/
def Live (c : View) (i : ℕ) : Prop := c.Valid i ∧ (c.inodes i).type ≠ typeFree

instance (c : View) (i : ℕ) : Decidable (c.Live i) := by
  unfold Live
  infer_instance

/-- The slots of an inode that hold a block. -/
@[irreducible]
def held (c : View) (i : ℕ) : Finset Slot := Finset.univ.filter fun p => c.slot i p ≠ 0

@[simp]
lemma mem_held : p ∈ c.held i ↔ c.slot i p ≠ 0 := by
  unfold held
  simp

/-- Allocation consistency. -/
structure Consistent (c : View) : Prop where
  dataStart_pos : 0 < c.dataStart
  totalBlocks_lt : c.totalBlocks < 4294967296
  totalInodes_lt : c.totalInodes < 4294967296
  /-- Every block a live inode reaches lies in the data area. -/
  inData : ∀ i p, c.Live i → c.slot i p ≠ 0 → c.InData (c.slot i p)
  /-- Every block a live inode reaches is marked in the bitmap. -/
  used : ∀ i p, c.Live i → c.slot i p ≠ 0 → c.used (c.slot i p) = true
  /-- No block is referenced twice. -/
  unique : ∀ i j p q, c.Live i → c.Live j → c.slot i p ≠ 0 → c.slot i p = c.slot j q →
    i = j ∧ p = q
  /-- Every marked block of the data area is referenced. -/
  owned : ∀ b, c.InData b → c.used b = true → ∃ i p, c.Live i ∧ c.slot i p = b
  /-- The free block count is the number of clear bits of the data area. -/
  freeBlocks_eq : c.freeBlocks =
    ((Finset.Ico c.dataStart c.totalBlocks).filter fun b => c.used b = false).card
  /-- The free inode count is the number of free inodes. -/
  freeInodes_eq : c.freeInodes =
    ((Finset.Ico 1 c.totalInodes).filter fun i => (c.inodes i).type = typeFree).card
  /-- Every live inode counts the blocks it references, pointer blocks included. -/
  blocks_eq : ∀ i, c.Live i → (c.inodes i).blocks = (c.held i).card

/-- Byte `k` of the contents of an inode: 0 where there is no block. -/
def byteAt (c : View) (i k : ℕ) : UInt8 :=
  match Slot.ofIndex (k / 1024) with
  | none => 0
  | some p => if c.slot i p = 0 then 0 else c.data (c.slot i p) (k % 1024)

lemma Consistent.ne_zero (hc : c.Consistent) {b : ℕ} (hb : c.InData b) : b ≠ 0 :=
  (hc.dataStart_pos.trans_le hb.1).ne'

lemma Consistent.slot_ne_of_unused (hc : c.Consistent) {b : ℕ} (hb : c.used b = false)
    (hb0 : b ≠ 0) (hi : c.Live i) (p : Slot) : c.slot i p ≠ b := by
  rintro rfl
  have := hc.used i p hi hb0
  rw [hb] at this
  exact Bool.false_ne_true this

/-- A live inode references at most as many blocks as the data area has. -/
lemma Consistent.card_held_le (hc : c.Consistent) (hi : c.Live i) :
    (c.held i).card ≤ c.totalBlocks - c.dataStart := by
  rw [← Nat.card_Ico]
  refine card_le_card_of_injOn (c.slot i) (fun p hp => ?_) fun p hp q _ hpq => ?_
  · rw [mem_coe, mem_held] at hp
    rw [mem_coe, mem_Ico]
    exact hc.inData i p hi hp
  · rw [mem_coe, mem_held] at hp
    exact (hc.unique i i p q hi hi hp hpq).2

/-- Consistency is about the geometry, the counts, the bitmap of the data area, the types and block
counts of the inodes, and the slots of those that are live. -/
lemma Consistent.congr {c' : View} (hc : c.Consistent) (hstart : c'.dataStart = c.dataStart)
    (hblocks : c'.totalBlocks = c.totalBlocks) (htotal : c'.totalInodes = c.totalInodes)
    (hfb : c'.freeBlocks = c.freeBlocks) (hfi : c'.freeInodes = c.freeInodes)
    (hused : ∀ b, c.InData b → c'.used b = c.used b)
    (hnode : ∀ j, c.Valid j → (c'.inodes j).type = (c.inodes j).type ∧
      (c'.inodes j).blocks = (c.inodes j).blocks)
    (hslot : ∀ j p, c.Live j → c'.slot j p = c.slot j p) : c'.Consistent := by
  have hin : ∀ b, c'.InData b ↔ c.InData b := fun b => by rw [InData, InData, hstart, hblocks]
  have hlive : ∀ j, c'.Live j ↔ c.Live j := fun j => by
    rw [Live, Live, Valid, Valid, htotal]
    exact and_congr_right fun hj => by rw [(hnode j hj).1]
  refine ⟨hstart ▸ hc.dataStart_pos, hblocks ▸ hc.totalBlocks_lt, htotal ▸ hc.totalInodes_lt,
    fun i p hi hp => ?_, fun i p hi hp => ?_, fun i j p q hi hj hp hpq => ?_, fun b hb hu => ?_, ?_,
    ?_, fun i hi => ?_⟩
  · rw [hlive] at hi
    rw [hslot i p hi] at hp ⊢
    exact (hin _).mpr (hc.inData i p hi hp)
  · rw [hlive] at hi
    rw [hslot i p hi] at hp ⊢
    rw [hused _ (hc.inData i p hi hp)]
    exact hc.used i p hi hp
  · rw [hlive] at hi hj
    rw [hslot i p hi] at hp hpq
    rw [hslot j q hj] at hpq
    exact hc.unique i j p q hi hj hp hpq
  · rw [hin] at hb
    rw [hused b hb] at hu
    obtain ⟨i, p, hi, hp⟩ := hc.owned b hb hu
    exact ⟨i, p, (hlive i).mpr hi, (hslot i p hi).trans hp⟩
  · rw [hfb, hc.freeBlocks_eq, hstart, hblocks]
    refine congrArg Finset.card (filter_congr fun b hb => ?_)
    rw [hused b (mem_Ico.mp hb)]
  · rw [hfi, hc.freeInodes_eq, htotal]
    refine congrArg Finset.card (filter_congr fun i hi => ?_)
    rw [(hnode i (mem_Ico.mp hi)).1]
  · rw [hlive] at hi
    rw [(hnode i hi.1).2, hc.blocks_eq i hi]
    refine congrArg Finset.card (Finset.ext fun p => ?_)
    rw [mem_held, mem_held, hslot i p hi]

end View

/-! ## Filling a slot -/

/-- In going from `c` to `c'`, the empty slot `p` of inode `i` receives the free block `b`, which
is marked, zeroed and counted. Nothing else changes but the inode's block count. -/
structure Fills (c c' : View) (i : ℕ) (p : Slot) (b : ℕ) : Prop where
  inData : c.InData b
  /-- The block was free. -/
  unused : c.used b = false
  live : c.Live i
  /-- The slot was empty. -/
  empty : c.slot i p = 0
  dataStart_eq : c'.dataStart = c.dataStart
  totalBlocks_eq : c'.totalBlocks = c.totalBlocks
  totalInodes_eq : c'.totalInodes = c.totalInodes
  /-- The block is marked. -/
  used_eq : c'.used = Function.update c.used b true
  /-- It is counted as taken. -/
  freeBlocks_eq : c'.freeBlocks = dec32 c.freeBlocks
  freeInodes_eq : c'.freeInodes = c.freeInodes
  /-- Other inodes stay. -/
  inodes_eq : ∀ j, j ≠ i → c'.inodes j = c.inodes j
  type_eq : (c'.inodes i).type = (c.inodes i).type
  size_eq : (c'.inodes i).size = (c.inodes i).size
  /-- The inode counts it. -/
  blocks_eq : (c'.inodes i).blocks = inc32 (c.inodes i).blocks
  /-- Every other slot stays. -/
  slot_eq : ∀ j q, c.Live j → c'.slot j q = if j = i ∧ q = p then b else c.slot j q
  /-- The block is zeroed. -/
  data_new : c'.data b = Buf.zero
  /-- The data of all files stays. -/
  data_eq : ∀ j q, c.Live j → ¬ q.IsTable → c.slot j q ≠ 0 →
    c'.data (c.slot j q) = c.data (c.slot j q)

variable {j : ℕ}

namespace Fills

variable {c c' : View} {i b : ℕ} {p : Slot} (h : Fills c c' i p b)

include h

lemma type_eq_all (j : ℕ) : (c'.inodes j).type = (c.inodes j).type := by
  by_cases hj : j = i
  · rw [hj, h.type_eq]
  · rw [h.inodes_eq j hj]

lemma live_iff (j : ℕ) : c'.Live j ↔ c.Live j := by
  simp only [View.Live, View.Valid, h.totalInodes_eq, h.type_eq_all]

lemma inData_iff (k : ℕ) : c'.InData k ↔ c.InData k := by
  simp only [View.InData, h.dataStart_eq, h.totalBlocks_eq]

section

variable (hc : c.Consistent)

include hc

lemma ne_zero : b ≠ 0 := hc.ne_zero h.inData

/-- What a slot holds afterwards, it held before, or it is the filled one. -/
lemma slot_cases (hj : c.Live j) (q : Slot) :
    (j = i ∧ q = p ∧ c'.slot j q = b) ∨
      (¬ (j = i ∧ q = p) ∧ c'.slot j q = c.slot j q ∧ c.slot j q ≠ b) := by
  rw [h.slot_eq j q hj]
  by_cases hjq : j = i ∧ q = p
  · exact .inl ⟨hjq.1, hjq.2, if_pos hjq⟩
  · exact .inr ⟨hjq, if_neg hjq, hc.slot_ne_of_unused h.unused (h.ne_zero hc) hj q⟩

/-- The free count before: at least the block that is taken. -/
lemma freeBlocks_pos :
    c.freeBlocks = ((Finset.Ico c.dataStart c.totalBlocks).filter
      fun k => c'.used k = false).card + 1 := by
  rw [hc.freeBlocks_eq]
  apply card_filter_succ (a := b)
  · rw [mem_Ico]
    exact h.inData
  · rw [h.used_eq, Function.update_self]
    decide
  · exact h.unused
  · intro k _ hk
    rw [h.used_eq, Function.update_of_ne hk]

/-- Filling a slot keeps the volume consistent. -/
lemma consistent : c'.Consistent where
  dataStart_pos := by rw [h.dataStart_eq]; exact hc.dataStart_pos
  totalBlocks_lt := by rw [h.totalBlocks_eq]; exact hc.totalBlocks_lt
  totalInodes_lt := by rw [h.totalInodes_eq]; exact hc.totalInodes_lt
  inData := by
    intro j q hj hq
    rw [h.live_iff] at hj
    rw [h.inData_iff]
    rcases h.slot_cases hc hj q with ⟨-, -, heq⟩ | ⟨-, heq, -⟩
    · rw [heq]
      exact h.inData
    · rw [heq] at hq ⊢
      exact hc.inData j q hj hq
  used := by
    intro j q hj hq
    rw [h.live_iff] at hj
    rw [h.used_eq]
    rcases h.slot_cases hc hj q with ⟨-, -, heq⟩ | ⟨-, heq, hne⟩
    · rw [heq, Function.update_self]
    · rw [heq] at hq ⊢
      rw [Function.update_of_ne hne]
      exact hc.used j q hj hq
  unique := by
    intro j k q r hj hk hq heq
    rw [h.live_iff] at hj hk
    rcases h.slot_cases hc hj q with ⟨hji, hqp, h1⟩ | ⟨-, h1, hne⟩ <;>
      rcases h.slot_cases hc hk r with ⟨hki, hrp, h2⟩ | ⟨-, h2, hne'⟩
    · exact ⟨hji.trans hki.symm, hqp.trans hrp.symm⟩
    · rw [h1, h2] at heq
      exact absurd heq.symm hne'
    · rw [h1, h2] at heq
      exact absurd heq hne
    · rw [h1] at hq
      rw [h1, h2] at heq
      exact hc.unique j k q r hj hk hq heq
  owned := by
    intro k hk hu
    rw [h.inData_iff] at hk
    rw [h.used_eq] at hu
    -- `b` belongs to the slot it fills, and no slot gave up its block: this one was empty
    by_cases hkb : k = b
    · refine ⟨i, p, (h.live_iff i).mpr h.live, ?_⟩
      rw [h.slot_eq i p h.live, if_pos ⟨rfl, rfl⟩, hkb]
    rw [Function.update_of_ne hkb] at hu
    obtain ⟨j, q, hj, hq⟩ := hc.owned k hk hu
    refine ⟨j, q, (h.live_iff j).mpr hj, ?_⟩
    rcases h.slot_cases hc hj q with ⟨hji, hqp, -⟩ | ⟨-, heq, -⟩
    · rw [hji, hqp, h.empty] at hq
      exact absurd hq.symm (hc.ne_zero hk)
    · rw [heq, hq]
  freeBlocks_eq := by
    have := h.freeBlocks_pos hc
    rw [h.freeBlocks_eq, h.dataStart_eq, h.totalBlocks_eq, dec32_of_pos (by omega), this,
      Nat.add_sub_cancel]
  freeInodes_eq := by
    rw [h.freeInodes_eq, h.totalInodes_eq, hc.freeInodes_eq]
    refine congrArg Finset.card (filter_congr fun j _ => ?_)
    rw [h.type_eq_all]
  blocks_eq := by
    intro j hj
    rw [h.live_iff] at hj
    by_cases hji : j = i
    · subst hji
      have hheld : c'.held j = insert p (c.held j) := by
        ext q
        rw [mem_insert, mem_held, mem_held]
        rcases h.slot_cases hc hj q with ⟨-, hqp, heq⟩ | ⟨hne, heq, -⟩
        · simp [hqp, hqp ▸ heq, h.ne_zero hc]
        · rw [heq, or_iff_right (fun hqp => hne ⟨rfl, hqp⟩)]
      have hle := hc.card_held_le hj
      have htot := hc.totalBlocks_lt
      have hpos := hc.dataStart_pos
      rw [h.blocks_eq, hc.blocks_eq j hj, hheld,
        card_insert_of_notMem (by simp [h.empty]), inc32_of_lt (by omega)]
    · rw [h.inodes_eq j hji, hc.blocks_eq j hj]
      refine congrArg Finset.card (Finset.ext fun q => ?_)
      rw [mem_held, mem_held, h.slot_eq j q hj, if_neg (fun hjq => hji hjq.1)]

/-- Filling a slot changes no contents: the new block reads as the hole it replaces. -/
lemma byteAt_eq (hj : c.Live j) (k : ℕ) : c'.byteAt j k = c.byteAt j k := by
  unfold View.byteAt
  cases hq : Slot.ofIndex (k / 1024) with
  | none => rfl
  | some q =>
    dsimp only
    rcases h.slot_cases hc hj q with ⟨hji, hqp, heq⟩ | ⟨-, heq, -⟩
    · rw [heq, if_neg (h.ne_zero hc), h.data_new, hji, hqp, if_pos h.empty]
      rfl
    rw [heq]
    split
    next => rfl
    next hne => rw [h.data_eq j q hj (Slot.ofIndex_not_isTable hq) hne]

end

end Fills

/-! ## The two ways a slot is filled -/

/-- The slot a field of the inode is. -/
def PtrField.slot : PtrField → Slot
  | .direct i => .direct i
  | .indirect => .indirect
  | .doubleIndirect => .double

/-- What is left to show of a slot's contents: that the fields of the inodes and the entries of
the pointer blocks there were before are as they should be. -/
lemma slot_eq_of_filled {c' : View} {b : ℕ} (hb : b ≠ 0) (hempty : c.slot i p = 0)
    (hparent : ∀ q, p.parent = some q → c.slot i q ≠ 0) (hnew : c'.data b = Buf.zero)
    (hroot : ∀ j q, c.Live j → q.parent = none →
      c'.slot j q = if j = i ∧ q = p then b else c.slot j q)
    (hentry : ∀ j q r, c.Live j → q.parent = some r → c.slot j r ≠ 0 →
      c'.entry (c.slot j r) q.index = if j = i ∧ q = p then b else c.slot j q) (hj : c.Live j)
    (q : Slot) :
    c'.slot j q = if j = i ∧ q = p then b else c.slot j q := by
  induction q using Slot.parent_induction with
  | root q hq => exact hroot j q hj hq
  | entry q r hqr ih =>
    rw [slot_parent c' j hqr, ih]
    by_cases hr : j = i ∧ r = p
    · -- an entry of the new block, which is empty
      obtain ⟨rfl, rfl⟩ := hr
      have hne : q ≠ r := by
        rintro rfl
        exact hparent q hqr hempty
      rw [if_pos ⟨rfl, rfl⟩, if_neg (fun h => hne h.2), slot_eq_zero_of_parent hqr hempty,
        View.entry, if_neg hb, hnew, Buf.word_zero]
    · rw [if_neg hr]
      by_cases hzero : c.slot j r = 0
      · have hne : ¬ (j = i ∧ q = p) := by
          rintro ⟨rfl, rfl⟩
          exact hparent r hqr hzero
        rw [if_neg hne, slot_eq_zero_of_parent hqr hzero, View.entry, if_pos hzero]
      · exact hentry j q r hj hqr hzero

namespace View

/-- The view after `fill_slot` has put a new block into a field of the inode. -/
def fillField (c : View) (i : ℕ) (f : PtrField) (b : ℕ) : View :=
  (c.take b).setInode i
    { (c.inodes i).setPtr b f with blocks := inc32 (c.inodes i).blocks }

/-- The view after `table_slot` has put a new block into an entry of a pointer block. -/
def fillEntry (c : View) (i t k b : ℕ) : View :=
  ((c.take b).setData t ((c.data t).setWord k b)).setInode i
    { c.inodes i with blocks := inc32 (c.inodes i).blocks }

end View

section Filling

variable {c : View} (hc : c.Consistent) {i b : ℕ} (hi : c.Live i) (hb : c.InData b)
  (hu : c.used b = false)

include hc hi hb hu

/-- A pointer of the inode itself. -/
theorem fills_field (f : PtrField) (hempty : (c.inodes i).ptr f = 0) :
    Fills c (c.fillField i f b) i f.slot b := by
  have hb0 : b ≠ 0 := hc.ne_zero hb
  have hslot : c.slot i f.slot = 0 := by
    rw [← hempty]
    cases f <;> rfl
  have hdata : ∀ k, k ≠ b → (c.fillField i f b).data k = c.data k := fun k hk =>
    Function.update_of_ne hk _ _
  have hnew : (c.fillField i f b).data b = Buf.zero := Function.update_self ..
  have hself : (c.fillField i f b).inodes i =
      { (c.inodes i).setPtr b f with blocks := inc32 (c.inodes i).blocks } :=
    Function.update_self ..
  have hother : ∀ j, j ≠ i → (c.fillField i f b).inodes j = c.inodes j := fun j hj =>
    Function.update_of_ne hj _ _
  have hroots : ∀ j q, c.Live j → q.parent = none →
      (c.fillField i f b).slot j q = if j = i ∧ q = f.slot then b else c.slot j q := by
    intro j q _ hq
    unfold View.slot
    by_cases hji : j = i
    · subst hji
      rw [hself]
      cases f <;> cases q <;>
        simp_all [Slot.parent, View.slotIn, Inode.setPtr, PtrField.slot, Function.update_apply]
    · rw [hother j hji, if_neg (fun h => hji h.1)]
      cases q <;> simp_all [Slot.parent, View.slotIn]
  refine ⟨hb, hu, hi, hslot, rfl, rfl, rfl, rfl, rfl, rfl, hother, ?_, ?_, ?_, ?_, hnew, ?_⟩
  · rw [hself]
    cases f <;> rfl
  · rw [hself]
    cases f <;> rfl
  · rw [hself]
  · intro j q hj
    refine slot_eq_of_filled hb0 hslot ?_ hnew hroots ?_ hj q
    · intro q hq
      cases f <;> cases hq
    -- the pointer blocks of other slots are not the new block
    intro j q r hj hqr hr
    have hne : ¬ (j = i ∧ q = f.slot) := by
      rintro ⟨-, rfl⟩
      cases f <;> cases hqr
    rw [if_neg hne, slot_parent c j hqr, View.entry, View.entry, if_neg hr, if_neg hr,
      hdata _ (hc.slot_ne_of_unused hu hb0 hj r)]
  · intro j q hj _ _
    exact hdata _ (hc.slot_ne_of_unused hu hb0 hj q)

/-- An entry of a pointer block. -/
theorem fills_entry {r : Slot} (hp : p.parent = some r) {t : ℕ} (ht : c.slot i r = t) (ht0 : t ≠ 0)
    (hempty : c.slot i p = 0) :
    Fills c (c.fillEntry i t p.index b) i p b := by
  have hb0 : b ≠ 0 := hc.ne_zero hb
  have hb32 : b % 4294967296 = b := Nat.mod_eq_of_lt (hb.2.trans hc.totalBlocks_lt)
  have htb : t ≠ b := ht ▸ hc.slot_ne_of_unused hu hb0 hi r
  have hdata : ∀ k, k ≠ b → k ≠ t → (c.fillEntry i t p.index b).data k = c.data k := fun k hk hk' =>
    (Function.update_of_ne hk' _ _).trans (Function.update_of_ne hk _ _)
  have htable : (c.fillEntry i t p.index b).data t = (c.data t).setWord p.index b := Function.update_self ..
  have hnew : (c.fillEntry i t p.index b).data b = Buf.zero :=
    (Function.update_of_ne htb.symm _ _).trans (Function.update_self ..)
  have hself : (c.fillEntry i t p.index b).inodes i =
      { c.inodes i with blocks := inc32 (c.inodes i).blocks } := Function.update_self ..
  have hother : ∀ j, j ≠ i → (c.fillEntry i t p.index b).inodes j = c.inodes j := fun j hj =>
    Function.update_of_ne hj _ _
  have hroots : ∀ j q, c.Live j → q.parent = none →
      (c.fillEntry i t p.index b).slot j q = if j = i ∧ q = p then b else c.slot j q := by
    intro j q _ hq
    have hne : q ≠ p := by
      rintro rfl
      rw [hq] at hp
      cases hp
    rw [if_neg (fun h => hne h.2)]
    unfold View.slot
    by_cases hji : j = i
    · subst hji
      rw [hself]
      cases q <;> first | rfl | cases hq
    · rw [hother j hji]
      cases q <;> first | rfl | cases hq
  refine ⟨hb, hu, hi, hempty, rfl, rfl, rfl, rfl, rfl, rfl, hother, ?_, ?_, ?_, ?_, hnew, ?_⟩
  · rw [hself]
  · rw [hself]
  · rw [hself]
  · intro j q hj
    refine slot_eq_of_filled hb0 hempty ?_ hnew hroots ?_ hj q
    · intro q hq
      rw [hp, some.injEq] at hq
      rwa [← hq, ht]
    intro j q r' hj hqr hr'
    by_cases hsame : c.slot j r' = t
    · -- an entry of the pointer block that was written
      obtain ⟨rfl, rfl⟩ := hc.unique j i r' r hj hi hr' (hsame.trans ht.symm)
      rw [hsame, View.entry, if_neg ht0, htable]
      by_cases hqp : q = p
      · rw [hqp, Buf.word_setWord_self, hb32, if_pos ⟨rfl, rfl⟩]
      · have hidx : q.index ≠ p.index := fun h => hqp (Slot.eq_of_parent hqr hp h)
        rw [Buf.word_setWord_of_ne _ _ hidx, if_neg (fun h => hqp h.2),
          slot_parent c j hqr, View.entry, ht, if_neg ht0]
    · have hne : ¬ (j = i ∧ q = p) := by
        rintro ⟨rfl, rfl⟩
        rw [hp, some.injEq] at hqr
        exact hsame (hqr ▸ ht)
      rw [if_neg hne, slot_parent c j hqr, View.entry, View.entry, if_neg hr', if_neg hr',
        hdata _ (hc.slot_ne_of_unused hu hb0 hj r') hsame]
  · intro j q hj hq hq0
    refine hdata _ (hc.slot_ne_of_unused hu hb0 hj q) ?_
    intro hsame
    obtain ⟨-, rfl⟩ := hc.unique j i q r hj hi hq0 (hsame.trans ht.symm)
    exact hq (Slot.parent_isTable hp)

end Filling

/-! ## Filling slots one after another -/

/-- How many of the listed slots of an inode are empty. -/
def View.missing (c : View) (i : ℕ) (on : List Slot) : ℕ := on.countP fun q => c.slot i q = 0

/-- On the way to a slot nothing is missing exactly when the slot holds a block. -/
lemma View.missing_path_eq_zero_iff : c.missing i p.path = 0 ↔ c.slot i p ≠ 0 := by
  rw [missing, countP_eq_zero]
  simp only [decide_eq_true_eq]
  refine ⟨fun h => h p p.self_mem_path, fun h q hq => ?_⟩
  -- an empty slot further up would make this one empty
  cases p with
  | direct | indirect | double =>
    simp only [Slot.path, List.mem_singleton] at hq
    rwa [hq]
  | single k | middle k =>
    simp only [Slot.path, List.mem_cons, List.not_mem_nil, or_false] at hq
    rcases hq with rfl | rfl
    · exact fun hz => h (slot_eq_zero_of_parent rfl hz)
    · exact h
  | leaf k l =>
    simp only [Slot.path, List.mem_cons, List.not_mem_nil, or_false] at hq
    rcases hq with rfl | rfl | rfl
    · exact fun hz => h (slot_eq_zero_of_parent rfl (slot_eq_zero_of_parent rfl hz))
    · exact fun hz => h (slot_eq_zero_of_parent rfl hz)
    · exact h

/-- A filled slot is missing no more. -/
lemma Fills.missing_eq {c' : View} {b : ℕ} (h : Fills c c' i p b) (hc : c.Consistent)
    {on : List Slot} (hon : on.Nodup) (hp : p ∈ on) :
    c.missing i on = c'.missing i on + 1 := by
  obtain ⟨l, l', rfl⟩ := append_of_mem hp
  have hsame : ∀ q, q ≠ p → c'.slot i q = c.slot i q := fun q hq => by
    rw [h.slot_eq i q h.live, if_neg fun hjq => hq hjq.2]
  have hself : c'.slot i p = b := by rw [h.slot_eq i p h.live, if_pos ⟨rfl, rfl⟩]
  rw [nodup_append, nodup_cons] at hon
  have hl : ∀ q ∈ l, q ≠ p := fun q hq => hon.2.2 q hq p (mem_cons_self ..)
  have hl' : ∀ q ∈ l', q ≠ p := fun q hq hqp => hon.2.1.1 (hqp ▸ hq)
  have hcount : ∀ l : List Slot, (∀ q ∈ l, q ≠ p) →
      l.countP (fun q => decide (c'.slot i q = 0)) = l.countP fun q => decide (c.slot i q = 0) :=
    fun l hl => countP_congr fun q hq => by rw [hsame q (hl q hq)]
  simp only [View.missing, countP_append, countP_cons, hcount l hl, hcount l' hl',
    h.empty, hself, h.ne_zero hc]
  simp [Nat.add_assoc]

/-- Slots of inode `i`, all of them listed, are filled one after another. -/
inductive Grows (i : ℕ) (on : List Slot) : View → View → Prop
  | refl (c : View) : Grows i on c c
  | step {c c' c'' : View} {p : Slot} {b : ℕ} :
      Grows i on c c' → Fills c' c'' i p b → p ∈ on → Grows i on c c''

namespace Grows

variable {i : ℕ} {on : List Slot} {c c' c'' : View}

section Growing

variable (h : Grows i on c c')

include h

lemma trans (h' : Grows i on c' c'') : Grows i on c c'' := by
  induction h' with
  | refl => exact h
  | step _ hf hp ih => exact ih.step hf hp

lemma consistent (hc : c.Consistent) : c'.Consistent := by
  induction h with
  | refl => exact hc
  | step _ hf _ ih => exact hf.consistent ih

lemma live_iff (j : ℕ) : c'.Live j ↔ c.Live j := by
  induction h with
  | refl => exact Iff.rfl
  | step _ hf _ ih => exact (hf.live_iff j).trans ih

lemma byteAt_eq (hc : c.Consistent) (hj : c.Live j) (k : ℕ) : c'.byteAt j k = c.byteAt j k := by
  induction h with
  | refl => rfl
  | step hg hf _ ih => rw [hf.byteAt_eq (hg.consistent hc) ((hg.live_iff j).mpr hj), ih]

lemma slot_eq_of_notMem (hq : q ∉ on) : c'.slot i q = c.slot i q := by
  induction h with
  | refl => rfl
  | step _ hf hp ih =>
    have hne : q ≠ _ := fun hqp => hq (hqp ▸ hp)
    rw [hf.slot_eq i q hf.live, if_neg fun hjq => hne hjq.2, ih]

/-- Every slot that is filled costs one free block. -/
lemma freeBlocks_add_missing (hc : c.Consistent) (hon : on.Nodup) :
    c'.freeBlocks + c.missing i on = c.freeBlocks + c'.missing i on := by
  induction h with
  | refl => rfl
  | @step c1 c2 p b hg hf hp ih =>
    have hc1 := hg.consistent hc
    have hfree := hf.freeBlocks_pos hc1
    have hfree' := (hf.consistent hc1).freeBlocks_eq
    rw [hf.dataStart_eq, hf.totalBlocks_eq] at hfree'
    have hmiss := hf.missing_eq hc1 hon hp
    omega

end Growing

end Grows

end Wos.Wfs
