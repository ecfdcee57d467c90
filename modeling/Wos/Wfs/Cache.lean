import Wos.Base.Machine
import Wos.Wfs.Volume
import Mathlib.Data.List.FinRange

/-!
# The block cache

The sixty-four slot cache of `kernel/fs/wfs.c` between the driver and the device: `cache_find`,
`cache_victim`, `block_read`, `blocks_read` and `block_write`. The device is an array of sectors
addressed by 32-bit numbers, and a block is two of them. Nothing here looks inside a sector, so its
contents are an arbitrary type `σ`. Every request is answered by the device: it is carried out, or
it fails and leaves what it was to fill, a slot or the sectors of the block, with anything at all.

The specification is the device without a cache, `Direct`. The cache refines it as long as no two
block numbers in use share their sectors: sector addresses are computed in 32 bits, so the blocks
`b` and `b + 2 ^ 31` do. The volume that the rest of the driver's model works on is one such device.

## Main definitions

* `CacheSlot`, `Cached`: the cache and the device behind it;
* `cacheFind`, `cacheVictim`, `cacheRead`, `cacheWrite`, `cacheReadRun`: the functions of the source;
* `CacheCall`, `Cached.exec`: one call with the device's answer to it;
* `Direct`: the same calls on a device without a cache;
* `Coherent`, `Transparent`: what the cache promises.

## Main results

* `exec_direct`: one call on a coherent cache is a call on the device;
* `cache_transparent`: so is every sequence of calls;
* `blockRead_direct`, `blockWrite_direct`, `blocksRead_direct`: block I/O of a `Volume` is too.
-/

namespace Wos.Wfs

open Function List
open Option hiding map_map

variable {σ : Type*}

/-! ## The cache and the device -/

/-- One slot of `cache`. -/
structure CacheSlot (σ : Type*) where
  data : Fin 2 → σ
  block : ℕ
  /-- For picking a victim; 0 means empty. -/
  stamp : ℕ

/-- The static variables of the cache, and the sectors of the device. -/
structure Cached (σ : Type*) where
  slots : Fin 64 → CacheSlot σ
  /-- `cache_clock`, a `uint64_t`. -/
  clock : ℕ
  device : ℕ → σ

/-- How the device answers a request for one block. -/
inductive Answer (σ : Type*) where
  | done
  /-- The request failed, leaving this in what it was to fill. -/
  | failed (junk : Fin 2 → σ)

/-- Sector `i` of a block: `partition_lba + block * WFS_SECTORS_PER_BLOCK`, a `uint32_t`, and the
sectors after it. -/
def sectorOf (p block i : ℕ) : ℕ := (p + 2 * block + i) % 4294967296

/-- What the device holds for a block. -/
def blockOf (p : ℕ) (device : ℕ → σ) (block : ℕ) : Fin 2 → σ :=
  fun i => device (sectorOf p block i)

/-- The device after the two sectors of a block were written. -/
def putBlock (p : ℕ) (device : ℕ → σ) (block : ℕ) (data : Fin 2 → σ) : ℕ → σ :=
  Function.update (Function.update device (sectorOf p block 0) (data 0)) (sectorOf p block 1) (data 1)

/-- `++cache_clock`. -/
def tick (clock : ℕ) : ℕ := (clock + 1) % 18446744073709551616

/-- A slot holds a block. -/
def CacheSlot.Holds (slot : CacheSlot σ) (block : ℕ) : Prop := slot.stamp ≠ 0 ∧ slot.block = block

instance (slot : CacheSlot σ) (block : ℕ) : Decidable (slot.Holds block) :=
  inferInstanceAs (Decidable (_ ∧ _))

/-- `cache_find`: the slot holding a block. -/
def cacheFind (s : Cached σ) (block : ℕ) : Option (Fin 64) :=
  (List.finRange 64).find? fun i => (s.slots i).Holds block

/-- The loop of `cache_victim`, with its two locals. -/
def victimScan (slots : Fin 64 → CacheSlot σ) : List (Fin 64) → Fin 64 → ℕ → Fin 64
  | [], worst, _ => worst
  | i :: is, worst, oldest =>
    if (slots i).stamp = 0 then i
    else if (slots i).stamp < oldest then victimScan slots is i (slots i).stamp
    else victimScan slots is worst oldest

/-- `cache_victim`: a free slot, or the least recently used one. -/
def cacheVictim (s : Cached σ) : Fin 64 :=
  victimScan s.slots (List.finRange 64) 0 18446744073709551615

/-- Replace one slot. -/
def Cached.setSlot (s : Cached σ) (i : Fin 64) (slot : CacheSlot σ) : Cached σ :=
  { s with slots := Function.update s.slots i slot }

/-- Replace one slot by an occupied one, stamped with the next tick of the clock. -/
def Cached.stampSlot (s : Cached σ) (i : Fin 64) (block : ℕ) (data : Fin 2 → σ) : Cached σ :=
  { s.setSlot i ⟨data, block, tick s.clock⟩ with clock := tick s.clock }

/-- `block_read`. -/
def cacheRead (p : ℕ) (s : Cached σ) (block : ℕ) (answer : Answer σ) :
    Cached σ × Option (Fin 2 → σ) :=
  match cacheFind s block with
  | some i => (s.stampSlot i (s.slots i).block (s.slots i).data, some (s.slots i).data)
  | none =>
    let i := cacheVictim s
    match answer with
    | .failed junk => (s.setSlot i ⟨junk, (s.slots i).block, 0⟩, none)
    | .done => (s.stampSlot i block (blockOf p s.device block), some (blockOf p s.device block))

/-- `block_write`: the copy first, then the device; the copy is dropped if the device refuses. -/
def cacheWrite (p : ℕ) (s : Cached σ) (block : ℕ) (buf : Fin 2 → σ) (answer : Answer σ) :
    Cached σ × Bool :=
  let i := (cacheFind s block).getD (cacheVictim s)
  let s := s.stampSlot i block buf
  match answer with
  | .done => ({ s with device := putBlock p s.device block buf }, true)
  | .failed junk =>
    ({ s.setSlot i ⟨buf, block, 0⟩ with device := putBlock p s.device block junk }, false)

/-- `blocks_read`: the sector count is cast to a `uint8_t`, and a request for no sector is refused
by all three drivers. `buf` is what the caller's buffer held before. -/
def cacheReadRun (p : ℕ) (s : Cached σ) (first count : ℕ) (buf : ℕ → σ) (done : Bool) :
    Option (List σ) :=
  let sectors := count * 2 % 256
  if sectors = 0 ∨ done = false then none
  else some ((List.range (count * 2)).map fun k =>
    if k < sectors then s.device (sectorOf p first k) else buf k)

/-! ## Calls -/

/-- A call of the driver on its block layer, with the device's answer. -/
inductive CacheCall (σ : Type*) where
  | read (block : ℕ) (answer : Answer σ)
  | write (block : ℕ) (buf : Fin 2 → σ) (answer : Answer σ)
  | readRun (first count : ℕ) (buf : ℕ → σ) (done : Bool)

/-- What a call returns: the buffer it filled, or whether it succeeded. -/
inductive CacheReply (σ : Type*) where
  | block (result : Option (Fin 2 → σ))
  | wrote (done : Bool)
  | run (result : Option (List σ))

/-- One call. -/
def Cached.exec (p : ℕ) (s : Cached σ) : CacheCall σ → Cached σ × CacheReply σ
  | .read block answer => ((cacheRead p s block answer).1, .block (cacheRead p s block answer).2)
  | .write block buf answer =>
    ((cacheWrite p s block buf answer).1, .wrote (cacheWrite p s block buf answer).2)
  | .readRun first count buf done => (s, .run (cacheReadRun p s first count buf done))

/-- The contents of consecutive blocks of the device. -/
def blocksOf (p : ℕ) (device : ℕ → σ) (first count : ℕ) : List σ :=
  (List.range count).flatMap fun j => List.ofFn (blockOf p device (first + j))

/-- The same calls on a device with no cache before it. A read that succeeds returns what the
device holds at that moment, and fails only if the device failed it. -/
inductive Direct (p : ℕ) : (ℕ → σ) → CacheCall σ × CacheReply σ → (ℕ → σ) → Prop
  | read (device : ℕ → σ) (block : ℕ) (answer : Answer σ) :
      Direct p device (.read block answer, .block (some (blockOf p device block))) device
  | readFailed (device : ℕ → σ) (block : ℕ) (junk : Fin 2 → σ) :
      Direct p device (.read block (.failed junk), .block none) device
  | write (device : ℕ → σ) (block : ℕ) (buf : Fin 2 → σ) :
      Direct p device (.write block buf .done, .wrote true) (putBlock p device block buf)
  | writeFailed (device : ℕ → σ) (block : ℕ) (buf junk : Fin 2 → σ) :
      Direct p device (.write block buf (.failed junk), .wrote false) (putBlock p device block junk)
  | run (device : ℕ → σ) (first count : ℕ) (buf : ℕ → σ) (done : Bool) :
      Direct p device (.readRun first count buf done, .run (some (blocksOf p device first count)))
        device
  | runFailed (device : ℕ → σ) (first count : ℕ) (buf : ℕ → σ) (done : Bool) :
      done = false ∨ count = 0 →
      Direct p device (.readRun first count buf done, .run none) device

/-- No two occupied slots hold the same block, and every occupied slot equals the device. -/
structure Coherent (p : ℕ) (s : Cached σ) : Prop where
  unique : ∀ i j b, (s.slots i).Holds b → (s.slots j).Holds b → i = j
  current : ∀ i b, (s.slots i).Holds b → (s.slots i).data = blockOf p s.device b

/-- `cache_reset`: every slot is empty. -/
def Cached.Empty (s : Cached σ) : Prop := ∀ i, (s.slots i).stamp = 0

/-- The cache is transparent for the calls that meet `ok`: after a reset, whatever calls follow,
they return what the device alone returns, and the cache stays coherent. -/
def Transparent (p : ℕ) (ok : CacheCall σ → Prop) : Prop :=
  ∀ s₀ : Cached σ, s₀.Empty → ∀ ls s, Run (execStep (fun _ c => ok c) (Cached.exec p)) s₀ ls s →
    Run (Direct p) s₀.device ls s.device ∧ Coherent p s

/-- Calls on the blocks of a set, with runs short enough for a byte to hold their sectors. -/
def CacheCall.Within (B : Set ℕ) : CacheCall σ → Prop
  | .read block _ => block ∈ B
  | .write block _ _ => block ∈ B
  | .readRun _ count _ _ => count < 128

/-! ## Sectors -/

/-- Different blocks of a volume have different sectors. -/
def Apart (B : Set ℕ) : Prop :=
  ∀ b ∈ B, ∀ b' ∈ B, b % 2147483648 = b' % 2147483648 → b = b'

lemma apart_below : Apart {b | b < 2147483648} := by
  intro b hb b' hb' h
  rwa [Nat.mod_eq_of_lt hb, Nat.mod_eq_of_lt hb'] at h

variable {b : ℕ}

lemma sectorOf_inj {p b' : ℕ} {i j : Fin 2} (h : sectorOf p b i = sectorOf p b' j) :
    b % 2147483648 = b' % 2147483648 ∧ i = j := by
  simp only [sectorOf] at h
  constructor
  · omega
  · ext
    omega

lemma blockOf_putBlock (p : ℕ) (device : ℕ → σ) (b : ℕ) (data : Fin 2 → σ) :
    blockOf p (putBlock p device b data) b = data := by
  have hne : sectorOf p b 0 ≠ sectorOf p b 1 := by
    simp only [sectorOf]
    omega
  ext i
  match i with
  | 0 => exact (update_of_ne hne ..).trans (update_self ..)
  | 1 => exact update_self ..

lemma blockOf_putBlock_of_ne {p : ℕ} {device : ℕ → σ} {b' : ℕ} {data : Fin 2 → σ}
    (h : b' % 2147483648 ≠ b % 2147483648) :
    blockOf p (putBlock p device b data) b' = blockOf p device b' := by
  ext i
  have hne : ∀ j : Fin 2, sectorOf p b' i ≠ sectorOf p b j := fun j hij => h (sectorOf_inj hij).1
  have h0 : sectorOf p b' i ≠ sectorOf p b 0 := hne 0
  have h1 : sectorOf p b' i ≠ sectorOf p b 1 := hne 1
  rw [blockOf, putBlock, update_of_ne h1, update_of_ne h0]
  rfl

/-- A run of sectors is the run of the blocks they belong to. -/
lemma blocksOf_eq (p : ℕ) (device : ℕ → σ) (first count : ℕ) :
    blocksOf p device first count
      = (range (count * 2)).map fun k => device (sectorOf p first k) := by
  induction count with
  | zero => rfl
  | succ n ih =>
    have h0 : sectorOf p (first + n) 0 = sectorOf p first (n * 2) := by
      simp only [sectorOf]
      omega
    have h1 : sectorOf p (first + n) 1 = sectorOf p first (n * 2 + 1) := by
      simp only [sectorOf]
      omega
    have hlast : ofFn (blockOf p device (first + n))
        = [device (sectorOf p first (n * 2)), device (sectorOf p first (n * 2 + 1))] := by
      rw [← h0, ← h1]
      rfl
    have hrange : range ((n + 1) * 2) = range (n * 2) ++ [n * 2, n * 2 + 1] := by
      rw [show (n + 1) * 2 = n * 2 + 1 + 1 by omega, range_succ, range_succ, append_assoc]
      rfl
    rw [blocksOf, range_succ, flatMap_append, ← blocksOf, ih, hrange, map_append,
      flatMap_singleton, hlast]
    rfl

/-! ## Slots -/

variable {i : Fin 64}

lemma cacheFind_some {s : Cached σ} (h : cacheFind s b = some i) : (s.slots i).Holds b := by
  simpa using find?_some h

lemma cacheFind_none {s : Cached σ} (h : cacheFind s b = none) (i : Fin 64) :
    ¬ (s.slots i).Holds b := by
  simpa using find?_eq_none.mp h i (mem_finRange i)

/-- The state behind the cache as the calls of a volume leave it: coherent, on the volume's
blocks. -/
structure Tracks (p : ℕ) (B : Set ℕ) (s : Cached σ) : Prop extends Coherent p s where
  mem : ∀ i b, (s.slots i).Holds b → b ∈ B

variable {p : ℕ} {B : Set ℕ} {s : Cached σ}

lemma Tracks.of_empty (h : s.Empty) : Tracks p B s where
  unique i _ _ hi _ := absurd (h i) hi.1
  current i _ hi := absurd (h i) hi.1
  mem i _ hi := absurd (h i) hi.1

/-- A state whose occupied slots, one apart, are those of a tracking state: the one slot holds
nothing, or a block that no other slot held, and the other blocks did not change on the device. -/
lemma Tracks.replace (h : Tracks p B s) {s' : Cached σ} (hb : b ∈ B)
    (hother : ∀ j, j ≠ i → s'.slots j = s.slots j) (hfree : ∀ j, j ≠ i → ¬ (s.slots j).Holds b)
    (hslot : ∀ b', (s'.slots i).Holds b' → b' = b ∧ (s'.slots i).data = blockOf p s'.device b)
    (hdevice : ∀ b' ∈ B, b' ≠ b → blockOf p s'.device b' = blockOf p s.device b') :
    Tracks p B s' where
  unique j k b' hj hk := by
    by_cases hji : j = i <;> by_cases hki : k = i
    · rw [hji, hki]
    · -- the replaced slot holds `b`, which no other slot does
      rw [hji] at hj
      rw [hother k hki, (hslot b' hj).1] at hk
      exact absurd hk (hfree k hki)
    · rw [hki] at hk
      rw [hother j hji, (hslot b' hk).1] at hj
      exact absurd hj (hfree j hji)
    · rw [hother j hji] at hj
      rw [hother k hki] at hk
      exact h.unique j k b' hj hk
  current j b' hj := by
    by_cases hji : j = i
    · rw [hji] at hj ⊢
      obtain ⟨rfl, hdata⟩ := hslot b' hj
      exact hdata
    rw [hother j hji] at hj ⊢
    have hne : b' ≠ b := by
      rintro rfl
      exact hfree j hji hj
    rw [hdevice b' (h.mem j b' hj) hne]
    exact h.current j b' hj
  mem j b' hj := by
    by_cases hji : j = i
    · rw [hji] at hj
      rw [(hslot b' hj).1]
      exact hb
    · rw [hother j hji] at hj
      exact h.mem j b' hj

@[simp]
lemma slots_setSlot (s : Cached σ) (i : Fin 64) (slot : CacheSlot σ) :
    (s.setSlot i slot).slots i = slot := update_self ..

lemma slots_setSlot_of_ne {j : Fin 64} (h : j ≠ i) (slot : CacheSlot σ) :
    (s.setSlot i slot).slots j = s.slots j := update_of_ne h ..

/-- The slot a block is found in, or the victim when it is found nowhere, is the only one that may
hold it. -/
lemma Tracks.other_free (h : Tracks p B s) (b : ℕ) (j : Fin 64)
    (hj : j ≠ (cacheFind s b).getD (cacheVictim s)) : ¬ (s.slots j).Holds b := by
  intro hold
  cases hfind : cacheFind s b with
  | none => exact cacheFind_none hfind j hold
  | some i =>
    rw [hfind, getD_some] at hj
    exact hj (h.unique j i b hold (cacheFind_some hfind))

/-! ## One call -/

/-- A read through the cache is what the device would give. -/
theorem Tracks.cacheRead (h : Tracks p B s) (hb : b ∈ B) (answer : Answer σ) :
    Direct p s.device (.read b answer, .block (cacheRead p s b answer).2)
        (cacheRead p s b answer).1.device ∧
      Tracks p B (cacheRead p s b answer).1 := by
  have hfree := h.other_free b
  cases hfind : cacheFind s b with
  | some i =>
    -- a hit is served without asking the device
    rw [hfind, getD_some] at hfree
    have hold := cacheFind_some hfind
    have hdata := h.current i b hold
    simp only [Wfs.cacheRead, hfind]
    refine ⟨?_, h.replace hb (fun j hj => slots_setSlot_of_ne hj _) hfree ?_ fun _ _ _ => rfl⟩
    · rw [hdata]
      exact Direct.read s.device b answer
    · intro b' hb'
      simp only [Cached.stampSlot, slots_setSlot] at hb' ⊢
      exact ⟨hb'.2.symm.trans hold.2, hdata⟩
  | none =>
    rw [hfind, getD_none] at hfree
    cases answer with
    | failed junk =>
      simp only [Wfs.cacheRead, hfind]
      refine ⟨Direct.readFailed s.device b junk,
        h.replace hb (fun j hj => slots_setSlot_of_ne hj _) hfree ?_ fun _ _ _ => rfl⟩
      intro b' hb'
      rw [slots_setSlot] at hb'
      exact absurd rfl hb'.1
    | done =>
      simp only [Wfs.cacheRead, hfind]
      refine ⟨Direct.read s.device b .done,
        h.replace hb (fun j hj => slots_setSlot_of_ne hj _) hfree ?_ fun _ _ _ => rfl⟩
      intro b' hb'
      simp only [Cached.stampSlot, slots_setSlot] at hb' ⊢
      exact ⟨hb'.2.symm, rfl⟩

/-- A write through the cache reaches the device. -/
theorem Tracks.cacheWrite (h : Tracks p B s) (hB : Apart B) (hb : b ∈ B) (buf : Fin 2 → σ)
    (answer : Answer σ) :
    Direct p s.device (.write b buf answer, .wrote (cacheWrite p s b buf answer).2)
        (cacheWrite p s b buf answer).1.device ∧
      Tracks p B (cacheWrite p s b buf answer).1 := by
  have hfree := h.other_free b
  have hdevice : ∀ data, ∀ b' ∈ B, b' ≠ b →
      blockOf p (putBlock p s.device b data) b' = blockOf p s.device b' :=
    fun data b' hb' hne => blockOf_putBlock_of_ne fun hmod => hne (hB b' hb' b hb hmod)
  cases answer with
  | done =>
    refine ⟨Direct.write s.device b buf,
      h.replace hb (fun j hj => slots_setSlot_of_ne hj _) hfree ?_ (hdevice buf)⟩
    intro b' hb'
    simp only [Wfs.cacheWrite, Cached.stampSlot, slots_setSlot] at hb' ⊢
    exact ⟨hb'.2.symm, (blockOf_putBlock p s.device b buf).symm⟩
  | failed junk =>
    refine ⟨Direct.writeFailed s.device b buf junk, h.replace hb ?_ hfree ?_ (hdevice junk)⟩
    · intro j hj
      simp only [Wfs.cacheWrite, Cached.stampSlot]
      rw [slots_setSlot_of_ne hj]
      exact slots_setSlot_of_ne hj _
    · intro b' hb'
      simp only [Wfs.cacheWrite, slots_setSlot] at hb'
      exact absurd rfl hb'.1

variable {count : ℕ}

/-- A run of up to 127 blocks is read whole. -/
lemma cacheReadRun_direct (s : Cached σ) (first : ℕ) (hcount : count < 128) (buf : ℕ → σ)
    (done : Bool) :
    Direct p s.device (.readRun first count buf done, .run (cacheReadRun p s first count buf done))
      s.device := by
  have hmod : count * 2 % 256 = count * 2 := Nat.mod_eq_of_lt (by omega)
  simp only [cacheReadRun, hmod]
  split_ifs with hrefused
  · apply Direct.runFailed
    rcases hrefused with h0 | hfail
    · exact .inr (by omega)
    · exact .inl hfail
  have hall : ((range (count * 2)).map fun k =>
      if k < count * 2 then s.device (sectorOf p first k) else buf k)
      = blocksOf p s.device first count := by
    rw [blocksOf_eq]
    apply map_congr_left
    intro k hk
    rw [if_pos (mem_range.mp hk)]
  rw [hall]
  exact Direct.run s.device first count buf done

/-- One call on a coherent cache is the same call on the device alone. -/
theorem exec_direct (hB : Apart B) (h : Tracks p B s) {c : CacheCall σ} (hc : c.Within B) :
    Direct p s.device (c, (s.exec p c).2) (s.exec p c).1.device ∧ Tracks p B (s.exec p c).1 := by
  cases c with
  | read b answer => exact h.cacheRead hc answer
  | write b buf answer => exact h.cacheWrite hB hc buf answer
  | readRun first count buf done => exact ⟨cacheReadRun_direct s first hc buf done, h⟩

/-- The cache is transparent for the calls on any set of blocks that do not share their sectors,
whatever requests the device fails. -/
theorem cache_transparent (p : ℕ) {B : Set ℕ} (hB : Apart B) :
    Transparent (σ := σ) p (CacheCall.Within B) := by
  intro s0 hempty ls s hrun
  obtain ⟨device, hdirect, rfl, htracks⟩ := hrun.simulates
    (R := fun s device => s.device = device ∧ Tracks p B s)
    (by
      rintro s _ ⟨c, r⟩ s' ⟨rfl, htracks⟩ ⟨hc, hexec⟩
      obtain ⟨hstep, htracks'⟩ := exec_direct hB htracks hc
      rw [hexec] at hstep htracks'
      exact ⟨s'.device, hstep, rfl, htracks'⟩)
    ⟨rfl, Tracks.of_empty hempty⟩
  exact ⟨hdirect, htracks.toCoherent⟩

/-- The blocks of a volume that starts at sector 63, up to the last that 32 bits can address. -/
theorem cache_transparent_below : Apart {b | b < 2147483648} ∧
    Transparent (σ := ℕ) 63 (CacheCall.Within {b | b < 2147483648}) :=
  ⟨apart_below, cache_transparent 63 apart_below⟩

lemma Direct.run_eq {device device' : ℕ → σ} {first : ℕ} {buf : ℕ → σ} {done : Bool} {l : List σ}
    (h : Direct p device (.readRun first count buf done, .run (some l)) device') :
    l = blocksOf p device first count := by
  cases h with
  | run => rfl

/-- A driver that just reset its cache, on a device of zeroes. -/
def zeroDevice : Cached ℕ := ⟨fun _ => ⟨fun _ => 0, 0, 0⟩, 0, fun _ => 0⟩

/-- The block numbers that wrap around: `block_write (2 ^ 31, …)` changes the sectors of block 0 and
leaves the copy of block 0 as it was. And the sector counts that wrap around: a run of 129 blocks
reads two sectors and reports success. -/
theorem not_transparent_of_wrap :
    ¬ Transparent (σ := ℕ) 0 (CacheCall.Within {b | b < 4294967296}) ∧
      ¬ Transparent (σ := ℕ) 0 (fun c => ∃ first, c = .readRun first 129 (fun _ => 1) true) := by
  constructor
  · intro h
    have hrun : Run (execStep (fun _ c => CacheCall.Within {b | b < 4294967296} c) (Cached.exec 0))
        zeroDevice (labels (Cached.exec 0) zeroDevice [.read 0 .done, .write 2147483648 (fun _ => 1)
          .done]) (play (Cached.exec 0) zeroDevice [.read 0 .done, .write 2147483648 (fun _ => 1)
          .done]) := by
      apply Legal.run
      have h0 : (0 : ℕ) ∈ {b | b < 4294967296} := Nat.zero_lt_succ _
      have h31 : (2147483648 : ℕ) ∈ {b | b < 4294967296} := by
        show (2147483648 : ℕ) < 4294967296
        omega
      exact ⟨h0, h31, trivial⟩
    have hcurrent := (h zeroDevice (fun _ => rfl) _ _ hrun).2.current 0 0 (by decide)
    exact absurd (congrFun hcurrent 0) (by decide)
  · intro h
    have hrun : Run (execStep (fun _ c => ∃ first, c = .readRun first 129 (fun _ => 1) true)
        (Cached.exec 0)) zeroDevice
        (labels (Cached.exec 0) zeroDevice [.readRun 0 129 (fun _ => 1) true])
        (play (Cached.exec 0) zeroDevice [.readRun 0 129 (fun _ => 1) true]) :=
      Legal.run ⟨⟨0, rfl⟩, trivial⟩
    obtain ⟨hdirect, -⟩ := h zeroDevice (fun _ => rfl) _ _ hrun
    cases hdirect with
    | cons hstep _ =>
      have hthird := congrArg (fun l => l.getD 2 0) hstep.run_eq
      exact absurd hthird (by decide)

/-! ## The volume above the cache -/

/-- The two sectors of a block. -/
def halves (buf : Buf) : Fin 2 → Fin 512 → UInt8 := fun i j => buf (512 * i + j)

/-- A device holds the blocks of a volume. -/
def OnDevice (p : ℕ) (device : ℕ → Fin 512 → UInt8) (v : Volume) : Prop :=
  ∀ b < 2147483648, blockOf p device b = halves (v.disk b)

section Volume

variable {device : ℕ → Fin 512 → UInt8} {v : Volume}

theorem blockRead_direct (h : OnDevice p device v) (hb : b < 2147483648) :
    ∃ answer, Direct p device (.read b answer, .block ((blockRead v b).map halves)) device := by
  rw [blockRead]
  split_ifs
  · exact ⟨.failed (halves (v.disk b)), Direct.readFailed device b _⟩
  · refine ⟨.done, ?_⟩
    rw [map_some, ← h b hb]
    exact Direct.read device b .done

/-- A block is written as two sectors. -/
theorem blockWrite_direct (h : OnDevice p device v) (hb : b < 2147483648) (buf : Buf) :
    ∃ answer device', Direct p device (.write b (halves buf) answer, .wrote (blockWrite v b buf).1)
      device' ∧ OnDevice p device' (blockWrite v b buf).2 := by
  have hother : ∀ data, ∀ b' < 2147483648, b' ≠ b →
      blockOf p (putBlock p device b data) b' = halves (v.disk b') := by
    intro data b' hb' hne
    rw [blockOf_putBlock_of_ne fun hmod => hne (apart_below b' hb' b hb hmod), h b' hb']
  rw [blockWrite]
  split_ifs
  · -- the volume's failed write leaves the block as it was
    refine ⟨.failed (halves (v.disk b)), _, Direct.writeFailed device b _ _, fun b' hb' => ?_⟩
    by_cases hbb : b' = b
    · rw [hbb, blockOf_putBlock]
    · exact hother _ b' hb' hbb
  · refine ⟨.done, _, Direct.write device b _, fun b' hb' => ?_⟩
    by_cases hbb : b' = b
    · simp [hbb, blockOf_putBlock]
    · simp only [update_of_ne hbb]
      exact hother _ b' hb' hbb

/-- The bytes of a block are those of its two sectors. -/
lemma slice_eq_halves (buf : Buf) :
    buf.slice 0 1024 = (ofFn (halves buf)).flatMap ofFn := by
  have hhalf : ∀ i : Fin 2, ofFn (halves buf i)
      = (range 512).map fun t => buf (512 * i + t) := by
    intro i
    rw [ofFn_eq_map, ← map_coe_finRange_eq_range, map_map]
    rfl
  have hboth : ofFn (halves buf) = [halves buf 0, halves buf 1] := rfl
  rw [Buf.slice, show (1024 : ℕ) = 512 + 512 from rfl, range_add, map_append,
    map_map, hboth, flatMap_cons, flatMap_singleton, hhalf, hhalf]
  simp [comp_def]

theorem blocksRead_direct (h : OnDevice p device v) {first : ℕ} (hlast : first + count ≤ 2147483648)
    (buf : ℕ → Fin 512 → UInt8) :
    ∃ done result, Direct p device (.readRun first count buf done, .run result) device ∧
      blocksRead v first count = result.map fun l => l.flatMap ofFn := by
  rw [blocksRead]
  split_ifs
  · exact ⟨false, none, Direct.runFailed device first count buf false (.inl rfl), rfl⟩
  refine ⟨true, _, Direct.run device first count buf true, ?_⟩
  rw [map_some, blocksOf, flatMap_assoc]
  refine congrArg some (flatMap_congr fun j hj => ?_)
  have := mem_range.mp hj
  rw [slice_eq_halves, h (first + j) (by omega)]

end Volume

end Wos.Wfs
