import Wos.Base.Machine
import Wos.Mm.Shm
import Wos.Proc.ElfSafe

/-!
# The layout of a process

Four parts of the kernel put pages into the space of a process: `elf_load` the image, `proc_sbrk` the
heap, `shm_map` shared objects, and `proc_spawn_io` the stack. Each of them checks its own range. The
checks of `elf_load` keep the image away from the kernel and from the stack, but not out of the window
of the shared objects: an image that has a page there is accepted, and `shm_map`, which looks only at
its own mappings, runs into that page.

For every other image the four ranges stay disjoint however the process goes on, and `paging_map` is
never asked for a page that is present. What the rest of the system does to the frames and to the
shared objects between two calls is arbitrary.

## Main definitions

* `Image.Covers`: the pages of the segments of an image;
* `Tenant`, `MemCall`, `layoutStep`: a process and what it may do to its memory;
* `Region`, `InRegion`, `Tidy`: the four ranges and the property.

## Main results

* `elfLoad_pages`: which pages are present after `elf_load`;
* `layout_tidy_iff`: every run is tidy exactly when the image stays out of the window.
-/

namespace Wos.Proc

open Mm Function Except

/-! ## The pages of an image -/

/-- `ph[i]` is a header whose segment is loaded. -/
def Image.Loads (image : Image) (i : ℕ) : Prop :=
  (image.phdr (image.phdrOffset i)).verdict image.size = .load

instance (image : Image) (i : ℕ) : Decidable (image.Loads i) := inferInstanceAs (Decidable (_ = _))

/-- A segment of an image covers a page. -/
def Image.Covers (image : Image) (v : ℕ) : Prop :=
  ∃ i < image.ePhnum, image.Loads i ∧ (image.phdr (image.phdrOffset i)).Covers v

instance (image : Image) (v : ℕ) : Decidable (image.Covers v) :=
  inferInstanceAs (Decidable (∃ i < _, _))

variable {image : Image} {m : Pmm} {s : Space} {st st' : Loader} {i n v : ℕ}

/-- Up to the stack, nothing wraps around. -/
lemma alignUp_le_alignUp {a b : ℕ} (h : a ≤ b) (hb : b ≤ userStackTop - userStackSize) :
    alignUp a ≤ alignUp b := by
  simp only [alignUp, pageSize, wordSize, userStackTop, userStackSize] at *
  omega

/-- What the loop over the pages leaves behind when it succeeds. -/
lemma leaf_mapRange {lo n : ℕ} {pages : List ℕ} {m' : Pmm} {s' : Space}
    (h : mapRange true n lo m s = .ok (true, pages, m', s')) (v : ℕ) :
    s'.leaf v ≠ none ↔ s.leaf v ≠ none ∨ lo ≤ v ∧ v < lo + n := by
  obtain ⟨ok, pages', m1, s1, hmap, hsteps, -, hall⟩ :=
    mapRange_spec (s := s) (n := n) (v := lo) m (.inl rfl)
  rw [h] at hmap
  cases hmap
  have hext := MapSteps.extends hsteps
  constructor
  · intro hv
    by_cases hold : s.leaf v = none
    · obtain ⟨hlo, hhi, -⟩ := hext.new v hold hv
      exact .inr ⟨hlo, hhi⟩
    · exact .inl hold
  · rintro (hold | ⟨hlo, hhi⟩)
    · exact hext.leaf_ne_none hold
    · exact hall rfl v hlo hhi

@[simp] lemma Loader.space_copySegment (st : Loader) (o : ℕ) (ph : Phdr) :
    (st.copySegment o ph).space = st.space := rfl

lemma Loader.highest_copySegment (st : Loader) (o : ℕ) (ph : Phdr) :
    (st.copySegment o ph).highest = max st.highest ph.top := by
  simp only [Loader.copySegment]
  split_ifs <;> omega

/-- A segment that is loaded adds its pages, and may end higher than the others. -/
lemma loadSegment_done {o : ℕ} {ph : Phdr} (h : st.loadSegment o ph = .ok (none, st')) :
    (∀ v, st'.space.leaf v ≠ none ↔ st.space.leaf v ≠ none ∨ ph.Covers v) ∧
      st'.highest = max st.highest ph.top := by
  cases hmap : mapRange true ((alignUp ph.top - alignDown ph.vaddr) / pageSize)
      (alignDown ph.vaddr / pageSize) st.pmm st.space with
  | error e => simp [Loader.loadSegment, hmap] at h
  | ok r =>
    obtain ⟨mapped, pages, m', s'⟩ := r
    simp only [Loader.loadSegment, hmap] at h
    -- A segment whose pages could not be mapped ends the loop with an error.
    split_ifs at h with hmapped
    · simp at h
    rw [Bool.not_eq_false] at hmapped
    subst hmapped
    obtain rfl := (Prod.mk.inj (ok.inj h)).2
    refine ⟨fun v => ?_, Loader.highest_copySegment _ o ph⟩
    rw [Loader.space_copySegment, leaf_mapRange hmap v, Phdr.covers_iff]

/-- What the headers `P` of an image, none of which is refused, do to the loader. -/
structure SegmentsDone (image : Image) (P : ℕ → Prop) (st st' : Loader) : Prop where
  leaf (v : ℕ) : st'.space.leaf v ≠ none ↔ st.space.leaf v ≠ none ∨
    ∃ i, P i ∧ image.Loads i ∧ (image.phdr (image.phdrOffset i)).Covers v
  highest : st.highest ≤ st'.highest
  le_highest (i : ℕ) : P i → image.Loads i →
    (image.phdr (image.phdrOffset i)).top ≤ st'.highest
  below : st.highest ≤ userStackTop - userStackSize →
    st'.highest ≤ userStackTop - userStackSize

/-- What one segment has mapped. -/
lemma elfSegment_done (h : elfSegment image i st = .ok (none, st')) :
    SegmentsDone image (· = i) st st' := by
  simp only [elfSegment] at h
  split at h
  case h_1 hskip =>
    -- Nothing but the record of reads changes.
    have hnot : ¬ image.Loads i := by simp [Image.Loads, hskip]
    obtain rfl := (Prod.mk.inj (ok.inj h)).2
    refine ⟨fun v => ?_, le_rfl, ?_, id⟩
    · simp [Loader.read, hnot]
    · rintro j rfl hj
      exact absurd hj hnot
  case h_2 => simp at h
  case h_3 hload =>
    obtain ⟨hleaf, hhighest⟩ := loadSegment_done h
    refine ⟨fun v => ?_, ?_, ?_, fun hbelow => ?_⟩
    · rw [hleaf]
      simp [Loader.read, Image.Loads, hload]
    · rw [hhighest]
      exact le_max_left _ _
    · rintro j rfl -
      rw [hhighest]
      exact le_max_right _ _
    · rw [hhighest]
      exact max_le hbelow (verdict_load hload).2.2.1

/-- What all of them have mapped. -/
lemma elfLoop_done (h : elfLoop image n i st = .ok (none, st')) :
    SegmentsDone image (fun j => i ≤ j ∧ j < i + n) st st' := by
  induction n generalizing i st with
  | zero =>
    cases h
    have hempty : ∀ j, ¬ (i ≤ j ∧ j < i + 0) := by omega
    exact ⟨fun v => by simp, le_rfl, fun j hj => absurd hj (hempty j), id⟩
  | succ n ih =>
    rw [elfLoop] at h
    cases hsegment : elfSegment image i st with
    | error e => simp [hsegment] at h
    | ok r =>
      obtain ⟨_ | e, st1⟩ := r
      · simp only [hsegment] at h
        have hfirst := elfSegment_done hsegment
        have hrest := ih h
        refine ⟨fun v => ?_, hfirst.highest.trans hrest.highest, fun j hj hload => ?_,
          fun hbelow => hrest.below (hfirst.below hbelow)⟩
        · rw [hrest.leaf, hfirst.leaf, or_assoc]
          -- The headers from `i` on are `i` and those from `i + 1` on.
          refine or_congr_right ⟨?_, ?_⟩
          · rintro (⟨j, rfl, hj⟩ | ⟨j, hrange, hj⟩)
            · exact ⟨j, by omega, hj⟩
            · exact ⟨j, by omega, hj⟩
          · rintro ⟨j, hrange, hj⟩
            by_cases hji : j = i
            · exact .inl ⟨j, hji, hj⟩
            · exact .inr ⟨j, by omega, hj⟩
        · by_cases hji : j = i
          · exact (hfirst.le_highest j hji hload).trans hrest.highest
          · exact hrest.le_highest j (by omega) hload
      · simp [hsegment] at h

/-- An image that was accepted: its pages and no others are present, and they lie below the heap. -/
theorem elfLoad_pages {l : Loaded} (h : elfLoad image m s = .ok (.ok l, st))
    (hs : ∀ v, s.leaf v = none) :
    (∀ v, st.space.leaf v ≠ none ↔ image.Covers v) ∧
      (∀ v, image.Covers v → v < l.heapStart / pageSize) ∧
      l.heapStart % pageSize = 0 ∧ l.heapStart ≤ userStackTop - userStackSize := by
  unfold elfLoad at h
  split at h
  · simp at h
  split at h
  · cases h
  · simp at h
  rename_i st1 hloop
  simp only [ok.injEq, Prod.mk.injEq] at h
  obtain ⟨hfinish, rfl⟩ := h
  have hdone := elfLoop_done hloop
  have hheap : l.heapStart = alignUp st1.highest := by
    unfold elfFinish at hfinish
    split_ifs at hfinish
    exact (congrArg Loaded.heapStart (ok.inj hfinish)).symm
  have hbelow := hdone.below (by simp [Loader.start])
  refine ⟨fun v => ?_, ?_, ?_, ?_⟩
  · rw [hdone.leaf]
    simp [Loader.start, hs, Image.Covers]
  · rintro v ⟨i, hi, hload, hcovers⟩
    have htop := hdone.le_highest i ⟨i.zero_le, by omega⟩ hload
    rw [hheap]
    exact hcovers.2.trans_le (Nat.div_le_div_right (alignUp_le_alignUp htop hbelow))
  · rw [hheap, alignUp, Nat.mul_mod_left]
  · rw [hheap]
    exact alignUp_le_alignUp hbelow le_rfl

/-- `elf_load` itself never runs into a page that is present. -/
lemma elfLoad_returns (image : Image) (m : Pmm) (s : Space) :
    ∃ r st, elfLoad image m s = .ok (r, st) := by
  have hsegment : ∀ i st, ∃ r st', elfSegment image i st = .ok (r, st') := by
    intro i st
    simp only [elfSegment]
    generalize image.phdrOffset i = o
    generalize image.phdr o = ph
    split
    · exact ⟨_, _, rfl⟩
    · exact ⟨_, _, rfl⟩
    obtain ⟨ok, pages, m', s', hmap, -⟩ :=
      mapRange_spec (s := (st.read (ph.fieldsRead o)).space)
        (n := (alignUp ph.top - alignDown ph.vaddr) / pageSize)
        (v := alignDown ph.vaddr / pageSize) (st.read (ph.fieldsRead o)).pmm (.inl rfl)
    simp only [Loader.loadSegment, hmap]
    split_ifs
    · exact ⟨_, _, rfl⟩
    · exact ⟨_, _, rfl⟩
  have hloop : ∀ n i st, ∃ r st', elfLoop image n i st = .ok (r, st') := by
    intro n
    induction n with
    | zero => exact fun i st => ⟨none, st, rfl⟩
    | succ n ih =>
      intro i st
      obtain ⟨r, st1, hone⟩ := hsegment i st
      rcases r with _ | e
      · obtain ⟨r, st2, hrest⟩ := ih (i + 1) st1
        exact ⟨r, st2, by simp only [elfLoop, hone, hrest]⟩
      · exact ⟨some e, st1, by simp only [elfLoop, hone]⟩
  unfold elfLoad
  split
  · exact ⟨_, _, rfl⟩
  · obtain ⟨r, st, hrun⟩ := hloop image.ePhnum 0 (Loader.start image m s)
    rcases r with _ | e <;> simp [hrun]

/-! ## The process -/

/-- The memory of a process, and whether `proc_spawn_io` has been at its stack. -/
structure Tenant where
  mem : ProcMem
  stacked : Bool

/-- What a process does to its memory, with the frames and the shared objects it finds. -/
inductive MemCall
  | sbrk (m : Pmm) (increment : ℤ)
  | shmMap (m : Pmm) (shms : Shms) (o : ℕ)
  | shmUnmap (m : Pmm) (shms : Shms) (addr : ℕ)
  | stack (m : Pmm)

/-- Increments are 64-bit words with a sign, and a process is given a stack once. -/
def MemCall.Allowed (p : Tenant) : MemCall → Prop
  | .sbrk _ increment => -2 ^ 63 ≤ increment ∧ increment < 2 ^ 63
  | .stack _ => p.stacked = false
  | _ => True

/-- What a call leaves of the process. -/
def MemCall.exec (p : Tenant) : MemCall → Except Panic Tenant
  | .sbrk m increment =>
    match procSbrk m p.mem increment with
    | .error e => .error e
    | .ok (_, _, mem) => .ok { p with mem }
  | .shmMap m shms o =>
    match Mm.shmMap m shms p.mem o with
    | .error e => .error e
    | .ok (_, _, _, mem) => .ok { p with mem }
  | .shmUnmap m shms addr =>
    match Mm.shmUnmap m shms p.mem addr with
    | .error e => .error e
    | .ok (_, _, _, mem) => .ok { p with mem }
  | .stack m =>
    match mapStack m p.mem.space with
    | .error e => .error e
    | .ok (_, _, space) => .ok ⟨{ p.mem with space }, true⟩

/-- One call that returns. -/
def layoutStep : Tenant → MemCall → Tenant → Prop := exceptStep MemCall.Allowed MemCall.exec

/-- The process as `elf_load` leaves it. -/
def Loaded.tenant (l : Loaded) (st : Loader) : Tenant :=
  ⟨⟨st.space, fun _ => none, l.heapStart, l.heapStart⟩, false⟩

/-- The four ranges of an address space. -/
inductive Region
  | image
  | heap
  | window
  | stack
  deriving DecidableEq

/-- A page is in one of the ranges. -/
def InRegion (image : Image) (p : Tenant) (v : ℕ) : Region → Prop
  | .image => image.Covers v
  | .heap => p.mem.heapStart / pageSize ≤ v ∧ v < alignUp p.mem.heapBreak / pageSize
  | .window => userMmapBase / pageSize ≤ v ∧ v < userMmapTop / pageSize
  | .stack => stackPage ≤ v ∧ v < stackPage + userStackSize / pageSize

/-- The ranges are disjoint, and no call asks for a page that is present. -/
structure Tidy (image : Image) (p : Tenant) : Prop where
  disjoint (v : ℕ) (r r' : Region) : InRegion image p v r → InRegion image p v r' → r = r'
  noPanic (c : MemCall) : c.Allowed p → ∀ v, c.exec p ≠ .error (.alreadyMapped v)

/-! ## The invariant -/

/-- Every page that is present is in the range of the part of the kernel that mapped it. Growing the
heap may fail halfway, so its pages are only known to be below the window. -/
structure Placed (image : Image) (p : Tenant) : Prop where
  /-- A page belongs to the image, the heap, the stack or a mapping in the window. -/
  pages (v : ℕ) : p.mem.space.leaf v ≠ none →
    image.Covers v ∨ (p.mem.heapStart / pageSize ≤ v ∧ v < userMmapBase / pageSize) ∨
      (p.stacked = true ∧ InRegion image p v .stack) ∨
      ∃ i x, p.mem.maps i = some x ∧ x.Covers v
  /-- The image is below the heap and outside window and stack. -/
  image (v : ℕ) : image.Covers v → v < p.mem.heapStart / pageSize ∧
    ¬ InRegion image p v .window ∧ ¬ InRegion image p v .stack
  /-- Mappings lie in the window. -/
  maps (i : Fin shmMaxMappings) (x : Mapping) : p.mem.maps i = some x →
    userMmapBase / pageSize ≤ x.base ∧ x.base + x.pages ≤ userMmapTop / pageSize
  /-- The heap starts at a page. -/
  aligned : p.mem.heapStart % pageSize = 0
  /-- It starts below the stack. -/
  heapStart : p.mem.heapStart ≤ userStackTop - userStackSize
  /-- It does not end before it starts. -/
  heap : p.mem.heapStart ≤ p.mem.heapBreak
  /-- It ends below the window, unless it is empty. -/
  heapBreak : p.mem.heapBreak ≤ userMmapBase ∨ p.mem.heapBreak = p.mem.heapStart

variable {p : Tenant}

section Placing

variable (h : Placed image p)

include h

/-- A heap that is not empty lies between the image and the window. -/
lemma Placed.heapRange (hv : InRegion image p v .heap) :
    p.mem.heapStart / pageSize ≤ v ∧ v < userMmapBase / pageSize := by
  obtain ⟨hlo, hhi⟩ := hv
  refine ⟨hlo, ?_⟩
  have haligned := h.aligned
  have hstart := h.heapStart
  rcases h.heapBreak with hbreak | hbreak
  · simp only [alignUp, pageSize, wordSize, userMmapBase] at *
    omega
  · -- An empty heap has no page, since it starts at the start of one.
    simp only [alignUp, pageSize, wordSize, userStackTop, userStackSize] at *
    omega

/-- No page is in two regions. -/
lemma Placed.disjoint (v : ℕ) (r r' : Region)
    (hr : InRegion image p v r) (hr' : InRegion image p v r') : r = r' := by
  -- The heap, the window and the stack follow each other, and the image is outside all three.
  have hheap : InRegion image p v .heap →
      ¬ InRegion image p v .window ∧ ¬ InRegion image p v .stack := by
    intro hv
    have hrange := (h.heapRange hv).2
    simp only [InRegion, stackPage, userStackTop, userStackSize, userMmapBase, pageSize] at *
    omega
  have hwindow : InRegion image p v .window → ¬ InRegion image p v .stack := by
    simp only [InRegion, stackPage, userStackTop, userStackSize, userMmapTop, pageSize]
    omega
  have himage : InRegion image p v .image → ¬ InRegion image p v .heap ∧
      ¬ InRegion image p v .window ∧ ¬ InRegion image p v .stack := by
    intro hv
    obtain ⟨hlt, hout⟩ := h.image v hv
    exact ⟨fun hv' => absurd hv'.1 (by omega), hout⟩
  cases r <;> cases r' <;> tauto

/-- A page of the window or of the stack is present only if it was mapped there. -/
lemma Placed.leaf_window (hv : InRegion image p v .window)
    (hfree : ∀ i x, p.mem.maps i = some x → ¬ x.Covers v) : p.mem.space.leaf v = none := by
  by_contra hne
  rcases h.pages v hne with himage | hheap | ⟨-, hstack⟩ | ⟨i, x, hx, hcovers⟩
  · exact (h.image v himage).2.1 hv
  · exact absurd hv.1 (by omega)
  · exact absurd (h.disjoint v .window .stack hv hstack) (by simp)
  · exact hfree i x hx hcovers

lemma Placed.leaf_stack (hv : InRegion image p v .stack)
    (hfree : p.stacked = false) : p.mem.space.leaf v = none := by
  by_contra hne
  have hnot : ¬ InRegion image p v .window := fun hwindow =>
    absurd (h.disjoint v .window .stack hwindow hv) (by simp)
  rcases h.pages v hne with himage | hheap | ⟨hstacked, -⟩ | ⟨i, x, hx, hlo, hhi⟩
  · exact (h.image v himage).2.2 hv
  · have hlo := hv.1
    simp only [stackPage, userStackTop, userStackSize, userMmapBase, pageSize] at hlo hheap
    omega
  · simp [hfree] at hstacked
  · obtain ⟨hbase, htop⟩ := h.maps i x hx
    exact hnot ⟨hbase.trans hlo, hhi.trans_le htop⟩

/-! ## Steps -/

/-- A call that keeps the invariant, or panics because of a frame. -/
def Fine (image : Image) : Except Panic Tenant → Prop
  | .error e => ∃ f, e = .doubleFree f
  | .ok p => Placed image p

/-- Pages may go, and pages of the heap may come. -/
lemma Placed.withSpace {space : Space}
    (hpages : ∀ v, space.leaf v ≠ none → p.mem.space.leaf v ≠ none ∨
      p.mem.heapStart / pageSize ≤ v ∧ v < userMmapBase / pageSize) :
    Placed image { p with mem := { p.mem with space } } := by
  refine { h with pages := fun v hv => ?_ }
  rcases hpages v hv with hold | hheap
  · exact h.pages v hold
  · exact .inr (.inl hheap)

lemma Placed.withBreak {heapBreak : ℕ} (hlo : p.mem.heapStart ≤ heapBreak)
    (hhi : heapBreak ≤ userMmapBase ∨ heapBreak = p.mem.heapStart) :
    Placed image { p with mem := { p.mem with heapBreak } } :=
  { h with heap := hlo, heapBreak := hhi }

/-- The heap grows to a new break below the window. -/
lemma Placed.grow (m : Pmm) {new : ℕ} (hnew : p.mem.heapBreak ≤ new) (htop : new ≤ userMmapBase) :
    ∃ ok pages m' space, mapRange true ((alignUp new - alignUp p.mem.heapBreak) / pageSize)
        (alignUp p.mem.heapBreak / pageSize) m p.mem.space = .ok (ok, pages, m', space) ∧
      Placed image { p with mem := { p.mem with space } } := by
  obtain ⟨ok, pages, m', space, hmap, hsteps, -⟩ :=
    mapRange_spec (s := p.mem.space) (n := (alignUp new - alignUp p.mem.heapBreak) / pageSize)
      (v := alignUp p.mem.heapBreak / pageSize) m (.inl rfl)
  refine ⟨ok, pages, m', space, hmap, h.withSpace fun v hv => ?_⟩
  by_cases hold : p.mem.space.leaf v = none
  · obtain ⟨hlo, hhi, -⟩ := (MapSteps.extends hsteps).new v hold hv
    have hheap := h.heap
    refine .inr ?_
    simp only [alignUp, pageSize, wordSize, userMmapBase] at *
    omega
  · exact .inl hold

/-- Growing and shrinking the heap. -/
lemma Placed.sbrk (m : Pmm) {increment : ℤ} (hinc : -2 ^ 63 ≤ increment ∧ increment < 2 ^ 63) :
    Fine image ((MemCall.sbrk m increment).exec p) := by
  have hbound : p.mem.heapBreak ≤ userStackTop - userStackSize := by
    rcases h.heapBreak with hle | heq
    · exact hle.trans (by decide)
    · rw [heq]
      exact h.heapStart
  have hheap := h.heap
  simp only [MemCall.exec, procSbrk]
  split_ifs with hzero hpos htop hroom
  · exact h
  · exact h
  · -- An increment is less than `2 ^ 63`, so the new break does not wrap around.
    have hword : (p.mem.heapBreak + increment.toNat) % wordSize =
        p.mem.heapBreak + increment.toNat := by
      apply Nat.mod_eq_of_lt
      simp only [wordSize, userStackTop, userStackSize] at *
      omega
    rw [hword] at htop ⊢
    obtain ⟨ok, pages, m', space, hmap, hplaced⟩ :=
      h.grow m (Nat.le_add_right _ increment.toNat) (not_lt.mp htop)
    rw [hmap]
    cases ok with
    | false => exact hplaced
    | true => exact hplaced.withBreak (hheap.trans (Nat.le_add_right _ _)) (.inl (not_lt.mp htop))
  · exact h
  · have hshrink : (-increment).toNat ≤ p.mem.heapBreak - p.mem.heapStart := by
      rw [Nat.add_sub_assoc hheap, Nat.add_mod_left, Nat.mod_eq_of_lt] at hroom
      · exact not_lt.mp hroom
      · simp only [wordSize, userStackTop, userStackSize] at *
        omega
    cases hunmap : unmapRange true
        ((alignUp p.mem.heapBreak - alignUp (p.mem.heapBreak - (-increment).toNat)) / pageSize)
        (alignUp (p.mem.heapBreak - (-increment).toNat) / pageSize) m p.mem.space with
    | error e => exact unmapRange_error hunmap
    | ok r =>
      refine Placed.withBreak (p := { p with mem := { p.mem with space := r.2 } })
        (h.withSpace fun v hv => .inl fun hnone => hv ?_) (by simp only; omega) ?_
      · rw [unmapRange_leaf hunmap, hnone, ite_self]
      · exact h.heapBreak.imp (by omega) (by simp only; omega)

/-- Mapping a shared object into the window. -/
lemma Placed.shmMap (m : Pmm) (shms : Shms) (o : ℕ) :
    Fine image ((MemCall.shmMap m shms o).exec p) := by
  rcases shmMap_spec m shms p.mem o with ⟨w, -, hlo, hhi, hfree, hpresent⟩ |
    ⟨r, m', shms', mem, hmap, hmapped⟩
  · exact absurd (h.leaf_window ⟨hlo, hhi⟩ hfree) hpresent
  simp only [MemCall.exec, hmap]
  cases hmapped with
  | refused => exact h
  | undone _ _ _ _ hleaf => exact h.withSpace fun v hv => .inl (hleaf ▸ hv)
  | @done _ space sh i base _ hnone hlo hhi _ _ hleaf =>
    refine { h with pages := fun v hv => ?_, maps := fun j x hx => ?_ }
    · by_cases hin : base ≤ v ∧ v < base + sh.frames.length
      · exact .inr (.inr (.inr ⟨i, _, update_self .., hin⟩))
      simp only [hleaf, if_neg hin] at hv
      refine (h.pages v hv).imp_right (Or.imp_right (Or.imp_right ?_))
      rintro ⟨j, x, hx, hcovers⟩
      have hj : j ≠ i := by
        rintro rfl
        simp [hnone] at hx
      exact ⟨j, x, (update_of_ne hj ..).trans hx, hcovers⟩
    · simp only [update_apply] at hx
      split_ifs at hx
      · cases hx
        exact ⟨hlo, hhi⟩
      · exact h.maps j x hx

/-- Unmapping it. -/
lemma Placed.shmUnmap (m : Pmm) (shms : Shms) (addr : ℕ) :
    Fine image ((MemCall.shmUnmap m shms addr).exec p) := by
  simp only [MemCall.exec]
  rcases shmUnmap_cases m shms p.mem addr with ⟨-, hunmap⟩ | ⟨i, x, space, hx, -, -, hleaf, hunmap⟩
  · rw [hunmap]
    exact h
  rw [hunmap]
  cases hunref : shmUnref m shms x.shm with
  | error e => exact shmUnref_error hunref
  | ok r =>
    refine { h with pages := fun v hv => ?_, maps := fun j y hy => ?_ }
    · -- A page that is left is not one of the mapping that went.
      simp only [hleaf] at hv
      split_ifs at hv with hcovers
      · exact absurd rfl hv
      refine (h.pages v hv).imp_right (Or.imp_right (Or.imp_right ?_))
      rintro ⟨j, y, hy, hcovers'⟩
      have hj : j ≠ i := by
        rintro rfl
        rw [hx] at hy
        cases hy
        exact hcovers hcovers'
      exact ⟨j, y, (update_of_ne hj ..).trans hy, hcovers'⟩
    · simp only [update_apply] at hy
      split_ifs at hy
      exact h.maps j y hy

lemma Placed.stack (m : Pmm) (hstacked : p.stacked = false) :
    Fine image ((MemCall.stack m).exec p) := by
  obtain ⟨ok, pages, m', space, hmap, hsteps, -⟩ :=
    mapRange_spec (s := p.mem.space) (n := userStackSize / pageSize) (v := stackPage) m
      (b := false) (.inr fun w hw hw' => h.leaf_stack ⟨hw, hw'⟩ hstacked)
  simp only [MemCall.exec, mapStack, hmap]
  refine { h with pages := fun v hv => ?_ }
  by_cases hold : p.mem.space.leaf v = none
  · obtain ⟨hlo, hhi, -⟩ := (MapSteps.extends hsteps).new v hold hv
    exact .inr (.inr (.inl ⟨rfl, hlo, hhi⟩))
  · exact (h.pages v hold).imp_right (Or.imp_right (Or.imp_left fun hp => ⟨rfl, hp.2⟩))

lemma Placed.exec {c : MemCall} (hallowed : c.Allowed p) : Fine image (c.exec p) := by
  cases c with
  | sbrk m increment => exact h.sbrk m hallowed
  | shmMap m shms o => exact h.shmMap m shms o
  | shmUnmap m shms addr => exact h.shmUnmap m shms addr
  | stack m => exact h.stack m hallowed

lemma Placed.tidy : Tidy image p where
  disjoint := h.disjoint
  noPanic c hallowed v herror := by
    have hfine := h.exec hallowed
    rw [herror] at hfine
    obtain ⟨f, hf⟩ := hfine
    cases hf

end Placing

lemma run_placed {calls : List MemCall} {p' : Tenant} (hrun : Run layoutStep p calls p')
    (h : Placed image p) : Placed image p' := by
  refine Run.invariant (P := Placed image) (fun p c p' hp hstep => ?_) hrun h
  have hfine := hp.exec hstep.1
  rwa [hstep.2] at hfine

/-- An image that stays out of the window leaves a process that is in order. -/
lemma placed_of_elfLoad {l : Loaded} (h : elfLoad image m s = .ok (.ok l, st))
    (hs : ∀ v, s.leaf v = none)
    (himage : ∀ v, image.Covers v → v < userMmapBase / pageSize ∨ userMmapTop / pageSize ≤ v) :
    Placed image (l.tenant st) := by
  obtain ⟨hpages, hbelow, haligned, hstart⟩ := elfLoad_pages h hs
  refine ⟨fun v hv => .inl ((hpages v).mp hv), fun v hv => ⟨hbelow v hv, ?_, ?_⟩, ?_, haligned,
    hstart, le_rfl, .inr rfl⟩
  · rintro ⟨hlo, hhi⟩
    rcases himage v hv with hv | hv <;> omega
  · -- The heap starts below the stack, and the image ends below the heap.
    rintro ⟨hlo, -⟩
    have hlt := hbelow v hv
    simp only [stackPage, userStackTop, userStackSize, pageSize] at hlo hlt hstart
    omega
  · intro i x hx
    cases hx

/-- `elf_load` of any image into a process without pages returns. If it accepts the image, the process
is tidy whatever it does from then on exactly when no page of the image is in the window. -/
theorem layout_tidy_iff (image : Image) (m : Pmm) (s : Space) (hs : ∀ v, s.leaf v = none) :
    ∃ r st, elfLoad image m s = .ok (r, st) ∧ ∀ l, r = .ok l →
      ((∀ calls p, Run layoutStep (l.tenant st) calls p → Tidy image p) ↔
        ∀ v, image.Covers v → v < userMmapBase / pageSize ∨ userMmapTop / pageSize ≤ v) := by
  obtain ⟨r, st, hload⟩ := elfLoad_returns image m s
  refine ⟨r, st, hload, ?_⟩
  rintro l rfl
  constructor
  · intro htidy v hv
    by_contra hin
    have hwindow : InRegion image (l.tenant st) v .window := by
      simp only [InRegion]
      omega
    have heq := (htidy [] _ (.nil _)).disjoint v .image .window hv hwindow
    cases heq
  · intro himage calls p hrun
    exact (run_placed hrun (placed_of_elfLoad hload hs himage)).tidy

lemma leaf_freshSpace (v : ℕ) : freshSpace.leaf v = none := rfl

/-- A program of one page at `USER_BASE` is accepted, and its process is always tidy. -/
theorem layout_tidy_program : ∃ l st,
    elfLoad (program userBase 4096) smallMachine freshSpace = .ok (.ok l, st) ∧
      ∀ calls p, Run layoutStep (l.tenant st) calls p → Tidy (program userBase 4096) p := by
  obtain ⟨r, st, hload, hiff⟩ :=
    layout_tidy_iff (program userBase 4096) smallMachine freshSpace leaf_freshSpace
  have haccepted : (elfLoad (program userBase 4096) smallMachine freshSpace).toOption.map
      (fun r => r.1.toOption.isSome) = some true := by
    decide
  rw [hload] at haccepted
  obtain ⟨l, rfl⟩ : ∃ l, r = .ok l := by
    cases r with
    | error e => cases haccepted
    | ok l => exact ⟨l, rfl⟩
  refine ⟨l, st, hload, (hiff l rfl).mpr ?_⟩
  rintro v ⟨i, hi, -, -, hv⟩
  have hnum : (program userBase 4096).ePhnum = 1 := by decide
  obtain rfl : i = 0 := by omega
  have htop : alignUp ((program userBase 4096).phdr
      ((program userBase 4096).phdrOffset 0)).top / pageSize = 0x40001 := by
    decide
  rw [htop] at hv
  exact .inl (hv.trans (by decide))

/-- The panic of a process that loads a program of one page, creates a shared object of one page and
maps it. -/
def firstPanic (vaddr : ℕ) : Option Panic :=
  match elfLoad (program vaddr 4096) smallMachine freshSpace with
  | .ok (.ok l, st) =>
    match shmCreate st.pmm 4096 true with
    | .ok (sh, m) =>
      match (MemCall.shmMap m (fun _ => sh) 0).exec (l.tenant st) with
      | .error e => some e
      | .ok _ => none
    | .error _ => none
  | _ => none

/-- A program whose page is the first of the window is accepted, and the first object it maps makes the
kernel panic. -/
theorem not_tidy_of_window : ¬ ∀ (image : Image) (m : Pmm) (s : Space) (l : Loaded) (st : Loader),
    (∀ v, s.leaf v = none) → elfLoad image m s = .ok (.ok l, st) →
      ∀ calls p, Run layoutStep (l.tenant st) calls p → Tidy image p := by
  intro hall
  have hpanic : firstPanic userMmapBase = some (.alreadyMapped 0x80000) := by
    decide
  unfold firstPanic at hpanic
  split at hpanic
  · rename_i l st hload
    split at hpanic
    · rename_i sh m hcreate
      split at hpanic
      · rename_i e hexec
        cases hpanic
        have htidy := hall _ _ _ l st leaf_freshSpace hload [] _ (.nil _)
        exact htidy.noPanic (.shmMap m (fun _ => sh) 0) trivial _ hexec
      · cases hpanic
    · cases hpanic
  · cases hpanic

end Wos.Proc
