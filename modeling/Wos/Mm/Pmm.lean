import Mathlib.Data.Finset.Card

/-!
# Physical frames

`kernel/mm/pmm.c`: a bitmap of the frames of the machine, scanned from a hint. A frame is named by
its number, that is, its physical address divided by the page size. The address 0, which the C
functions return when there is no memory, is `none`.

What a frame holds is not modelled, and neither is the clearing of frames.

## Main definitions

* `Pmm`, `Pmm.allocFrame`, `Pmm.allocFrameLow`, `Pmm.freeFrame`, `Pmm.freeFrames`;
* `Pmm.Took`: one frame was taken and nothing else changed but the hints.

## Main results

* `Pmm.allocFrame_cases`, `Pmm.allocFrameLow_cases`: an allocation takes a free frame or fails;
* `Pmm.freeFrame_ok`: a frame that is used can be freed.
-/

namespace Wos.Mm

open Finset

/-- `PAGE_SIZE`. -/
def pageSize : ℕ := 4096

/-- `LOW_MEMORY_LIMIT`: the kernel's identity map covers the first gigabyte. -/
def lowMemoryLimit : ℕ := 1024 * 1024 * 1024

/-- Where the kernel stops for good. -/
inductive Panic
  /-- `pmm_free_frame` of a frame that is free. -/
  | doubleFree (f : ℕ)
  /-- `paging_map` of a page that is present. -/
  | alreadyMapped (page : ℕ)
  deriving DecidableEq

/-- The state of the frame allocator. -/
structure Pmm where
  /-- The bitmap. -/
  used : ℕ → Bool
  /-- `total_frames`. -/
  total : ℕ
  /-- `used_frames`. -/
  usedFrames : ℕ
  nextHint : ℕ
  nextHintLow : ℕ

/-- The first of `n` frames from `f` on that is not used. -/
def findFree (used : ℕ → Bool) : ℕ → ℕ → Option ℕ
  | 0, _ => none
  | n + 1, f => if used f then findFree used n (f + 1) else some f

namespace Pmm

/-- `alloc_scan`: from the hint to the end, then from the start to the hint. -/
def allocScan (m : Pmm) (start stop hint : ℕ) : Option ℕ :=
  let first := if start ≤ hint ∧ hint < stop then hint else start
  (findFree m.used (stop - first) first).or (findFree m.used (first - start) start)

/-- One frame marked used. -/
def take (m : Pmm) (f : ℕ) : Pmm :=
  { m with used := Function.update m.used f true, usedFrames := m.usedFrames + 1 }

/-- `pmm_alloc_frame`. -/
def allocFrame (m : Pmm) : Option ℕ × Pmm :=
  match m.allocScan 0 m.total m.nextHint with
  | none => (none, m)
  | some f => (if f = 0 then none else some f, { m.take f with nextHint := f + 1 })

/-- `pmm_alloc_frame_low`. -/
def allocFrameLow (m : Pmm) : Option ℕ × Pmm :=
  match m.allocScan 0 (min (lowMemoryLimit / pageSize) m.total) m.nextHintLow with
  | none => (none, m)
  | some f => (if f = 0 then none else some f, { m.take f with nextHintLow := f + 1 })

/-- `pmm_free_frame`. -/
def freeFrame (m : Pmm) (f : ℕ) : Except Panic Pmm :=
  if m.total ≤ f then .ok m
  else if m.used f = false then .error (.doubleFree f)
  else .ok
    { m with
      used := Function.update m.used f false
      usedFrames := m.usedFrames - 1
      nextHint := if f < m.nextHint then f else m.nextHint
      nextHintLow :=
        if f * pageSize < lowMemoryLimit ∧ f < m.nextHintLow then f else m.nextHintLow }

/-- Several frames given back, one after the other. -/
def freeFrames (m : Pmm) : List ℕ → Except Panic Pmm
  | [] => .ok m
  | f :: fs =>
    match m.freeFrame f with
    | .error e => .error e
    | .ok m => m.freeFrames fs

/-! ## What the functions do -/

/-- The frame `f` was free and is now used. Only the hints may have changed besides. -/
structure Took (m : Pmm) (f : ℕ) (m' : Pmm) : Prop where
  /-- The frame exists. -/
  lt : f < m.total
  /-- It was free. -/
  free : m.used f = false
  /-- It alone is marked. -/
  used : m'.used = Function.update m.used f true
  total : m'.total = m.total
  /-- It is counted. -/
  usedFrames : m'.usedFrames = m.usedFrames + 1

/-- The frames `fs` were given back. Only the hints may have changed besides. -/
structure Gave (m : Pmm) (fs : List ℕ) (m' : Pmm) : Prop where
  used (g : ℕ) : m'.used g = true ↔ m.used g = true ∧ g ∉ fs
  total : m'.total = m.total
  usedFrames : m'.usedFrames = m.usedFrames - fs.length

variable {m m' : Pmm} {f g : ℕ}

lemma findFree_some {used : ℕ → Bool} {n : ℕ} {f g : ℕ}
    (h : findFree used n f = some g) : used g = false ∧ f ≤ g ∧ g < f + n := by
  induction n generalizing f with
  | zero => cases h
  | succ n ih =>
    rw [findFree] at h
    split_ifs at h with hf
    · obtain ⟨hg, hle, hlt⟩ := ih h
      exact ⟨hg, by omega, by omega⟩
    · cases h
      simp only [Bool.not_eq_true] at hf
      exact ⟨hf, by omega, by omega⟩

lemma allocScan_some {stop hint : ℕ} (h : m.allocScan 0 stop hint = some f) :
    m.used f = false ∧ f < stop := by
  simp only [allocScan, Option.or_eq_some_iff] at h
  rcases h with h | ⟨-, h⟩
  · obtain ⟨hfree, -, hlt⟩ := findFree_some h
    refine ⟨hfree, ?_⟩
    split_ifs at hlt <;> omega
  · obtain ⟨hfree, -, hlt⟩ := findFree_some h
    refine ⟨hfree, ?_⟩
    split_ifs at hlt <;> omega

/-- An allocation takes a free frame, or fails; a frame 0 that is free is lost to the machine, since
its address reads as a failure. -/
lemma allocFrame_cases (m : Pmm) :
    (∃ f m', m.allocFrame = (some f, m') ∧ f ≠ 0 ∧ m.Took f m') ∨
      ∃ m', m.allocFrame = (none, m') ∧ (m' = m ∨ m.Took 0 m') := by
  unfold allocFrame
  cases hscan : m.allocScan 0 m.total m.nextHint with
  | none => exact .inr ⟨m, rfl, .inl rfl⟩
  | some f =>
    obtain ⟨hfree, hlt⟩ := allocScan_some hscan
    by_cases hf : f = 0
    · subst hf
      exact .inr ⟨_, rfl, .inr ⟨hlt, hfree, rfl, rfl, rfl⟩⟩
    · exact .inl ⟨f, { m.take f with nextHint := f + 1 }, by simp [hf], hf,
        ⟨hlt, hfree, rfl, rfl, rfl⟩⟩

lemma allocFrameLow_cases (m : Pmm) :
    (∃ f m', m.allocFrameLow = (some f, m') ∧ f ≠ 0 ∧ m.Took f m' ∧
      f < lowMemoryLimit / pageSize) ∨
      ∃ m', m.allocFrameLow = (none, m') ∧ (m' = m ∨ m.Took 0 m') := by
  unfold allocFrameLow
  cases hscan : m.allocScan 0 (min (lowMemoryLimit / pageSize) m.total) m.nextHintLow with
  | none => exact .inr ⟨m, rfl, .inl rfl⟩
  | some f =>
    obtain ⟨hfree, hlt⟩ := allocScan_some hscan
    rw [lt_min_iff] at hlt
    by_cases hf : f = 0
    · subst hf
      exact .inr ⟨_, rfl, .inr ⟨hlt.2, hfree, rfl, rfl, rfl⟩⟩
    · exact .inl ⟨f, { m.take f with nextHintLow := f + 1 }, by simp [hf], hf,
        ⟨hlt.2, hfree, rfl, rfl, rfl⟩, hlt.1⟩

lemma freeFrame_ok (hlt : f < m.total) (hused : m.used f = true) :
    ∃ m', m.freeFrame f = .ok m' ∧ m.Gave [f] m' := by
  rw [freeFrame, if_neg (by omega), if_neg (by simp [hused])]
  refine ⟨_, rfl, ⟨fun g => ?_, rfl, rfl⟩⟩
  by_cases hg : g = f <;> simp [hg]

lemma freeFrames_singleton (m : Pmm) (f : ℕ) : m.freeFrames [f] = m.freeFrame f := by
  simp only [freeFrames]
  cases m.freeFrame f <;> rfl

variable {fs : List ℕ} {e : Panic}

/-- Giving frames back panics in one way only. -/
lemma freeFrame_error (h : m.freeFrame f = .error e) : e = .doubleFree f := by
  unfold freeFrame at h
  split_ifs at h
  exact (Except.error.inj h).symm

lemma freeFrames_error (h : m.freeFrames fs = .error e) :
    ∃ f, e = .doubleFree f := by
  induction fs generalizing m with
  | nil => cases h
  | cons f fs ih =>
    cases hfree : m.freeFrame f with
    | error e' =>
      simp only [freeFrames, hfree, Except.error.injEq] at h
      exact ⟨f, h ▸ freeFrame_error hfree⟩
    | ok m1 =>
      simp only [freeFrames, hfree] at h
      exact ih h

/-- Frames that are used, each named once, can be given back without a panic. -/
lemma freeFrames_ok (hnodup : fs.Nodup) (hfs : ∀ f ∈ fs, f < m.total ∧ m.used f = true) :
    ∃ m', m.freeFrames fs = .ok m' ∧ m.Gave fs m' := by
  induction fs generalizing m with
  | nil => exact ⟨m, rfl, ⟨by simp, rfl, rfl⟩⟩
  | cons f fs ih =>
    obtain ⟨hf, hnodup⟩ := List.nodup_cons.mp hnodup
    obtain ⟨m1, hm1, hgave⟩ := freeFrame_ok (hfs f (by simp)).1 (hfs f (by simp)).2
    -- The frames left are still used: none of them is the one just freed.
    obtain ⟨m2, hm2, hgave2⟩ := ih hnodup (m := m1) fun g hg => by
      rw [hgave.total, hgave.used]
      refine ⟨(hfs g (by simp [hg])).1, (hfs g (by simp [hg])).2, ?_⟩
      rw [List.mem_singleton]
      rintro rfl
      exact hf hg
    refine ⟨m2, by simp only [freeFrames, hm1, hm2], ?_, ?_, ?_⟩
    · intro g
      rw [hgave2.used, hgave.used, List.mem_singleton, List.mem_cons, not_or, and_assoc]
    · rw [hgave2.total, hgave.total]
    · rw [hgave2.usedFrames, hgave.usedFrames, Nat.sub_sub]
      simp [Nat.add_comm]

/-! ## The count of used frames -/

/-- The count of used frames is right. -/
def Counted (m : Pmm) : Prop :=
  m.usedFrames = ((Finset.range m.total).filter fun f => m.used f = true).card

instance (m : Pmm) : Decidable m.Counted := inferInstanceAs (Decidable (_ = _))

lemma Took.counted (h : m.Took f m') (hm : m.Counted) : m'.Counted := by
  have hset : (Finset.range m'.total).filter (fun g => m'.used g = true) =
      insert f ((Finset.range m.total).filter fun g => m.used g = true) := by
    ext g
    simp only [h.total, h.used, Function.update_apply, mem_filter, mem_range, mem_insert]
    by_cases hg : g = f
    · simp [hg, h.lt]
    · simp [hg]
  rw [Counted, hset, card_insert_of_notMem (by simp [h.free]), h.usedFrames, hm]

lemma Gave.counted (h : m.Gave fs m') (hm : m.Counted) (hnodup : fs.Nodup)
    (hfs : ∀ f ∈ fs, f < m.total ∧ m.used f = true) : m'.Counted := by
  have hset : (Finset.range m'.total).filter (fun g => m'.used g = true) =
      ((Finset.range m.total).filter fun g => m.used g = true) \ fs.toFinset := by
    ext g
    simp only [h.total, h.used, mem_filter, mem_range, mem_sdiff, List.mem_toFinset, and_assoc]
  have hsub : fs.toFinset ⊆ (Finset.range m.total).filter fun g => m.used g = true := by
    intro g hg
    simpa using hfs g (List.mem_toFinset.mp hg)
  rw [Counted, hset, card_sdiff_of_subset hsub, h.usedFrames, hm,
    List.toFinset_card_of_nodup hnodup]

end Pmm

/-- A machine with 16 frames, of which the first four are the kernel's. -/
def smallMachine : Pmm := ⟨fun f => f < 4, 16, 4, 4, 4⟩

end Wos.Mm
