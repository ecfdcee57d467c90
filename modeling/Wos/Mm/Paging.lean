import Mathlib.Algebra.Group.Nat.Defs
import Wos.Mm.Pmm

/-!
# Address spaces

`kernel/mm/paging.c`, for the part of an address space that belongs to a process. All user addresses
lie in the second and third gigabyte, so the walk goes through the first entry of the top table and
one of the process's own page directories; the entries that every space borrows from the kernel (the
identity map and the device window) are left out, and so are the functions that change them.

Pages are named by their number, a virtual address divided by the page size. The walk sets the user
bit on every table above a user page, so the bit that matters is the one of the page itself. The
functions that clear a page run in the space they map it in.

## Main definitions

* `Space`, `Space.table`, `Space.leaf`: the tables, and what `paging_translate` finds in them;
* `walkToPt`, `pagingMap`, `pagingMapAlloc`, `unmap`, `pagingNewAddrspace`, `pagingFreeAddrspace`:
  the functions;
* `mapRange`: the loop around `paging_map_alloc` that its callers share.

## Main results

* `pagingMap_spec`, `pagingMapAlloc_spec`, `unmap_keep`, `mapRange_spec`: what they do to the pages.
-/

namespace Wos.Mm

open Function Option

/-- 64-bit words wrap around here. -/
def wordSize : ℕ := 2 ^ 64

/-- `ALIGN_DOWN` to a page. -/
def alignDown (x : ℕ) : ℕ := x / pageSize * pageSize

/-- `ALIGN_UP` to a page. -/
def alignUp (x : ℕ) : ℕ := (x + (pageSize - 1)) % wordSize / pageSize * pageSize

/-- `USER_BASE`. -/
def userBase : ℕ := 0x40000000

/-- `USER_STACK_TOP`. -/
def userStackTop : ℕ := 0xBFFF0000

/-- `USER_STACK_SIZE`. -/
def userStackSize : ℕ := 64 * 1024

/-- `USER_MMAP_BASE`. -/
def userMmapBase : ℕ := 0x80000000

/-- `USER_MMAP_TOP`. -/
def userMmapTop : ℕ := 0xB0000000

/-- `DEVICE_WINDOW`. -/
def deviceWindow : ℕ := 0xC0000000

/-- The flags `PTE_USER` and `PTE_WRITE`. -/
structure PteFlags where
  user : Bool
  write : Bool
  deriving DecidableEq

/-- Every page of a process is mapped with these. -/
def userWrite : PteFlags := ⟨true, true⟩

/-- A present entry of a page table. -/
structure Pte where
  frame : ℕ
  flags : PteFlags
  deriving DecidableEq

/-- A page table, with the frame it is in. -/
structure Pt where
  frame : ℕ
  entry : ℕ → Option Pte

/-- A page directory, with the frame it is in. -/
structure Pd where
  frame : ℕ
  entry : ℕ → Option Pt

/-- `addrspace_t`, with the frames of its two upper tables and the page directories that are its
own. -/
structure Space where
  pml4 : ℕ
  pdpt : ℕ
  entry : ℕ → Option Pd
  userFrames : ℕ
  tableFrames : ℕ

namespace Space

/-- The page table that covers the pages `512 * u` to `512 * u + 511`. -/
def table (s : Space) (u : ℕ) : Option Pt := (s.entry (u / 512)).bind fun d => d.entry (u % 512)

/-- `paging_translate`: the entry of a page, if it is present. -/
def leaf (s : Space) (v : ℕ) : Option Pte := (s.table (v / 512)).bind fun t => t.entry (v % 512)

/-- A page directory put in. -/
def setPd (s : Space) (i : ℕ) (d : Pd) : Space :=
  { s with entry := Function.update s.entry i (some d) }

/-- A page table put into the directory that is there. -/
def setTable (s : Space) (u : ℕ) (t : Pt) : Space :=
  match s.entry (u / 512) with
  | none => s
  | some d => s.setPd (u / 512) { d with entry := Function.update d.entry (u % 512) (some t) }

/-- A page put into, or taken out of, the table that is there. -/
def setLeaf (s : Space) (v : ℕ) (e : Option Pte) : Space :=
  match s.table (v / 512) with
  | none => s
  | some t => s.setTable (v / 512) { t with entry := Function.update t.entry (v % 512) e }

/-- A page put in and counted. -/
def withPage (s : Space) (v f : ℕ) (flags : PteFlags) : Space :=
  { s.setLeaf v (some ⟨f, flags⟩) with
    userFrames := if flags.user then s.userFrames + 1 else s.userFrames }

/-- A page taken out and no longer counted. -/
def withoutPage (s : Space) (v : ℕ) (e : Pte) : Space :=
  { s.setLeaf v none with
    userFrames := if e.flags.user then s.userFrames - 1 else s.userFrames }

end Space

/-! ## The functions -/

/-- `zeroed_low_frame`. -/
def zeroedLowFrame (m : Pmm) : Option ℕ × Pmm := m.allocFrameLow

/-- `next_level` from the top to a page directory, creating it. -/
def ensurePd (m : Pmm) (s : Space) (i : ℕ) : Bool × Pmm × Space :=
  match s.entry i with
  | some _ => (true, m, s)
  | none =>
    match zeroedLowFrame m with
    | (none, m) => (false, m, s)
    | (some f, m) =>
      (true, m, { s.setPd i ⟨f, fun _ => none⟩ with tableFrames := s.tableFrames + 1 })

/-- `next_level` from a page directory to a page table, creating it. -/
def ensureTable (m : Pmm) (s : Space) (u : ℕ) : Bool × Pmm × Space :=
  match s.table u with
  | some _ => (true, m, s)
  | none =>
    match zeroedLowFrame m with
    | (none, m) => (false, m, s)
    | (some f, m) =>
      (true, m, { s.setTable u ⟨f, fun _ => none⟩ with tableFrames := s.tableFrames + 1 })

/-- `walk_to_pt`, creating the path. -/
def walkToPt (m : Pmm) (s : Space) (v : ℕ) : Bool × Pmm × Space :=
  match ensurePd m s (v / 512 / 512) with
  | (false, m, s) => (false, m, s)
  | (true, m, s) => ensureTable m s (v / 512)

/-- `paging_map`. -/
def pagingMap (m : Pmm) (s : Space) (v f : ℕ) (flags : PteFlags) :
    Except Panic (Bool × Pmm × Space) :=
  match walkToPt m s v with
  | (false, m, s) => .ok (false, m, s)
  | (true, m, s) =>
    match s.leaf v with
    | some _ => .error (.alreadyMapped v)
    | none => .ok (true, m, s.withPage v f flags)

/-- `paging_map_alloc`. -/
def pagingMapAlloc (m : Pmm) (s : Space) (v : ℕ) (flags : PteFlags) :
    Except Panic (Bool × Pmm × Space) :=
  match m.allocFrame with
  | (none, m) => .ok (false, m, s)
  | (some f, m) =>
    match pagingMap m s v f flags with
    | .error e => .error e
    | .ok (false, m, s) =>
      match m.freeFrame f with
      | .error e => .error e
      | .ok m => .ok (false, m, s)
    | .ok (true, m, s) => .ok (true, m, s)

/-- `unmap` of a page of the process's own: `paging_unmap` when the frame is freed,
`paging_unmap_keep` when it is not. -/
def unmap (m : Pmm) (s : Space) (v : ℕ) (freeFrame : Bool) : Except Panic (Pmm × Space) :=
  match s.leaf v with
  | none => .ok (m, s)
  | some e =>
    if freeFrame then
      match m.freeFrame e.frame with
      | .error e => .error e
      | .ok m => .ok (m, s.withoutPage v e)
    else .ok (m, s.withoutPage v e)

/-- The loop with which `elf_load`, `proc_sbrk` and `proc_spawn_io` map `n` pages from `v` on, each
onto a fresh frame that is cleared; `skip` says whether it steps over pages that are present. The
pages it cleared are returned as well. -/
def mapRange (skip : Bool) : ℕ → ℕ → Pmm → Space → Except Panic (Bool × List ℕ × Pmm × Space)
  | 0, _, m, s => .ok (true, [], m, s)
  | n + 1, v, m, s =>
    if skip = true ∧ (s.leaf v).isSome then mapRange skip n (v + 1) m s
    else
      match pagingMapAlloc m s v userWrite with
      | .error e => .error e
      | .ok (false, m, s) => .ok (false, [], m, s)
      | .ok (true, m, s) =>
        match mapRange skip n (v + 1) m s with
        | .error e => .error e
        | .ok (ok, pages, m, s) => .ok (ok, v :: pages, m, s)

/-- `paging_new_addrspace`; `heapOk` says whether the kernel heap has room for the record. -/
def pagingNewAddrspace (m : Pmm) (heapOk : Bool) : Except Panic (Option Space × Pmm) :=
  if heapOk = false then .ok (none, m)
  else
    match zeroedLowFrame m with
    | (none, m) => .ok (none, m)
    | (some pml4, m) =>
      match zeroedLowFrame m with
      | (none, m) =>
        match m.freeFrame pml4 with
        | .error e => .error e
        | .ok m => .ok (none, m)
      | (some pdpt, m) => .ok (some ⟨pml4, pdpt, fun _ => none, 0, 2⟩, m)

/-- The frames of the pages of a table and of the table, in the order they are freed. -/
def Pt.frames (t : Pt) : List ℕ :=
  ((List.range 512).filterMap fun k => (t.entry k).map Pte.frame) ++ [t.frame]

/-- The frames of the tables of a directory and of the directory. -/
def Pd.frames (d : Pd) : List ℕ :=
  ((List.range 512).flatMap fun j => (d.entry j).elim [] Pt.frames) ++ [d.frame]

/-- The frames of a space. Entry 0 and the entry of the device window are borrowed. -/
def Space.frames (s : Space) : List ℕ :=
  (((List.range 512).filter fun i => i ≠ 0 ∧ i ≠ deviceWindow / pageSize / 512 / 512).flatMap
    fun i => (s.entry i).elim [] Pd.frames) ++ [s.pdpt, s.pml4]

/-- `paging_free_addrspace`. -/
def pagingFreeAddrspace (m : Pmm) (s : Space) : Except Panic Pmm := m.freeFrames s.frames

/-! ## Reading the tables -/

/-- The places of a space at which a frame is named. -/
inductive Slot
  | pml4
  | pdpt
  | pd (i : ℕ)
  | pt (u : ℕ)
  | page (v : ℕ)
  deriving DecidableEq

/-- The frame named at a place. -/
def Space.holds (s : Space) : Slot → Option ℕ
  | .pml4 => some s.pml4
  | .pdpt => some s.pdpt
  | .pd i => (s.entry i).map Pd.frame
  | .pt u => (s.table u).map Pt.frame
  | .page v => (s.leaf v).map Pte.frame

variable {s : Space} {u v w i : ℕ}

namespace Space

@[simp] lemma entry_setPd (d : Pd) (j : ℕ) :
    (s.setPd i d).entry j = if j = i then some d else s.entry j := by
  simp [setPd, update_apply]

lemma table_setTable (h : s.entry (u / 512) ≠ none) (t : Pt) (w : ℕ) :
    (s.setTable u t).table w = if w = u then some t else s.table w := by
  obtain ⟨d, hd⟩ := ne_none_iff_exists'.mp h
  by_cases hdiv : w / 512 = u / 512
  · by_cases hmod : w % 512 = u % 512
    · rw [if_pos (Nat.ext_div_mod hdiv hmod)]
      simp [table, setTable, hd, hdiv, hmod]
    · rw [if_neg fun hw => hmod (by rw [hw])]
      simp [table, setTable, hd, hdiv, hmod]
  · rw [if_neg fun hw => hdiv (by rw [hw])]
    simp [table, setTable, hd, hdiv]

lemma frame_entry_setTable (t : Pt) (i : ℕ) :
    ((s.setTable u t).entry i).map Pd.frame = (s.entry i).map Pd.frame := by
  unfold setTable
  split
  · rfl
  next d hd =>
  rw [entry_setPd]
  split_ifs with hi
  · rw [hi, hd]
    rfl
  · rfl

lemma entry_ne_none_of_table (h : s.table u ≠ none) : s.entry (u / 512) ≠ none := by
  intro hnone
  simp [table, hnone] at h

lemma table_setLeaf (h : s.table (v / 512) ≠ none) (e : Option Pte) (u : ℕ) :
    ((s.setLeaf v e).table u).map Pt.frame = (s.table u).map Pt.frame := by
  obtain ⟨t, ht⟩ := ne_none_iff_exists'.mp h
  simp only [setLeaf, ht]
  rw [table_setTable (entry_ne_none_of_table h)]
  split_ifs with hu
  · rw [hu, ht]
    rfl
  · rfl

lemma leaf_setLeaf (h : s.table (v / 512) ≠ none) (e : Option Pte) (w : ℕ) :
    (s.setLeaf v e).leaf w = if w = v then e else s.leaf w := by
  obtain ⟨t, ht⟩ := ne_none_iff_exists'.mp h
  simp only [setLeaf, ht, leaf]
  rw [table_setTable (entry_ne_none_of_table h)]
  by_cases hdiv : w / 512 = v / 512
  · by_cases hmod : w % 512 = v % 512
    · simp [Nat.ext_div_mod hdiv hmod]
    · rw [if_neg fun hw : w = v => hmod (by rw [hw])]
      simp [hdiv, hmod, ht]
  · rw [if_neg hdiv, if_neg fun hw => hdiv (by rw [hw])]

lemma table_ne_none_of_leaf (h : s.leaf v ≠ none) : s.table (v / 512) ≠ none := by
  intro hnone
  simp [leaf, hnone] at h

/-- Putting in or taking out a page changes what is named at that page only. -/
lemma holds_setLeaf (h : s.table (v / 512) ≠ none) (e : Option Pte) :
    (s.setLeaf v e).holds = update s.holds (.page v) (e.map Pte.frame) := by
  obtain ⟨t, ht⟩ := ne_none_iff_exists'.mp h
  funext σ
  cases σ with
  | pml4 | pdpt =>
    simp only [setLeaf, ht, setTable]
    split <;> simp [holds, setPd]
  | pd i =>
    simp only [setLeaf, ht]
    simpa [holds] using frame_entry_setTable _ i
  | pt u => simpa [holds] using table_setLeaf h e u
  | page w =>
    simp only [holds, leaf_setLeaf h, update_apply, Slot.page.injEq]
    split_ifs <;> rfl

/-- An empty directory covers no pages. -/
lemma table_setPd_empty (h : s.entry i = none) (f u : ℕ) :
    (s.setPd i ⟨f, fun _ => none⟩).table u = s.table u := by
  simp only [table, entry_setPd]
  split_ifs with hu
  · simp [hu, h]
  · rfl

lemma leaf_setPd_empty (h : s.entry i = none) (f : ℕ) :
    (s.setPd i ⟨f, fun _ => none⟩).leaf = s.leaf := by
  funext v
  rw [leaf, table_setPd_empty h, leaf]

lemma holds_setPd_empty (h : s.entry i = none) (f : ℕ) :
    (s.setPd i ⟨f, fun _ => none⟩).holds = update s.holds (.pd i) (some f) := by
  funext σ
  cases σ with
  | pml4 | pdpt => simp [holds, setPd]
  | pd j =>
    simp only [holds, entry_setPd, update_apply, Slot.pd.injEq]
    split_ifs <;> rfl
  | pt u => simp [holds, table_setPd_empty h]
  | page v => simp [holds, leaf_setPd_empty h]

/-- An empty table has no pages. -/
lemma leaf_setTable_empty (hentry : s.entry (u / 512) ≠ none) (h : s.table u = none) (f : ℕ) :
    (s.setTable u ⟨f, fun _ => none⟩).leaf = s.leaf := by
  funext v
  rw [leaf, table_setTable hentry, leaf]
  split_ifs with hv
  · simp [hv, h]
  · rfl

lemma holds_setTable_empty (hentry : s.entry (u / 512) ≠ none) (h : s.table u = none) (f : ℕ) :
    (s.setTable u ⟨f, fun _ => none⟩).holds = update s.holds (.pt u) (some f) := by
  funext σ
  cases σ with
  | pml4 | pdpt =>
    simp only [setTable]
    split <;> simp [holds, setPd]
  | pd i => simpa [holds] using frame_entry_setTable _ i
  | pt w =>
    simp only [holds, table_setTable hentry, update_apply, Slot.pt.injEq]
    split_ifs <;> rfl
  | page v => simp [holds, leaf_setTable_empty hentry h]

end Space

/-! ## The walk -/

/-- The page table `u` or the directory above it was added to a space, or nothing but a free frame 0
was lost. -/
inductive Grow (u : ℕ) : Pmm × Space → Pmm × Space → Prop
  | lost {m m' : Pmm} {s : Space} : m.Took 0 m' → Grow u (m, s) (m', s)
  | table {m m' : Pmm} {s s' : Space} {σ : Slot} {f : ℕ} : f ≠ 0 → m.Took f m' →
      f < lowMemoryLimit / pageSize → s.holds σ = none → σ = .pd (u / 512) ∨ σ = .pt u →
      s'.holds = Function.update s.holds σ (some f) → s'.leaf = s.leaf →
      s'.userFrames = s.userFrames → Grow u (m, s) (m', s')

/-- Some of the tables above a page of the page table `u` were added. -/
abbrev Grows (u : ℕ) := Relation.ReflTransGen (Grow u)

variable {m m' : Pmm} {s' : Space}

lemma zeroedLowFrame_cases (m : Pmm) :
    (∃ f m', zeroedLowFrame m = (some f, m') ∧ f ≠ 0 ∧ m.Took f m' ∧
      f < lowMemoryLimit / pageSize) ∨
      ∃ m', zeroedLowFrame m = (none, m') ∧ (m' = m ∨ m.Took 0 m') :=
  m.allocFrameLow_cases

lemma grows_of_none (h : m' = m ∨ m.Took 0 m') : Grows u (m, s) (m', s) := by
  rcases h with rfl | htook
  · exact .refl
  · exact .single (.lost htook)

lemma ensurePd_spec (m : Pmm) (s : Space) (u : ℕ) :
    ∃ ok m' s', ensurePd m s (u / 512) = (ok, m', s') ∧ Grows u (m, s) (m', s') ∧
      (ok = true → s'.entry (u / 512) ≠ none) := by
  unfold ensurePd
  cases hentry : s.entry (u / 512) with
  | some d => exact ⟨true, m, s, rfl, .refl, fun _ => by simp [hentry]⟩
  | none =>
    rcases zeroedLowFrame_cases m with ⟨f, m', halloc, hf, htook, hlow⟩ | ⟨m', halloc, hm'⟩
    · refine ⟨true, m',
        { s.setPd (u / 512) ⟨f, fun _ => none⟩ with tableFrames := s.tableFrames + 1 },
        by simp only [halloc], .single (.table (σ := .pd (u / 512)) hf htook hlow ?_ (.inl rfl)
          (Space.holds_setPd_empty hentry f) (Space.leaf_setPd_empty hentry f) rfl), ?_⟩
      · simp [Space.holds, hentry]
      · simp
    · exact ⟨false, m', s, by simp only [halloc], grows_of_none hm', by simp⟩

/-- A table is there afterwards, if memory was. -/
lemma ensureTable_spec (m : Pmm) (s : Space) (u : ℕ) (hentry : s.entry (u / 512) ≠ none) :
    ∃ ok m' s', ensureTable m s u = (ok, m', s') ∧ Grows u (m, s) (m', s') ∧
      (ok = true → s'.table u ≠ none) := by
  unfold ensureTable
  cases htable : s.table u with
  | some t => exact ⟨true, m, s, rfl, .refl, fun _ => by simp [htable]⟩
  | none =>
    rcases zeroedLowFrame_cases m with ⟨f, m', halloc, hf, htook, hlow⟩ | ⟨m', halloc, hm'⟩
    · refine ⟨true, m',
        { s.setTable u ⟨f, fun _ => none⟩ with tableFrames := s.tableFrames + 1 },
        by simp only [halloc], .single (.table (σ := .pt u) hf htook hlow ?_ (.inr rfl)
          (Space.holds_setTable_empty hentry htable f)
          (Space.leaf_setTable_empty hentry htable f) ?_), fun _ => ?_⟩
      · simp [Space.holds, htable]
      · simp only [Space.setTable]
        split <;> rfl
      · change (s.setTable u _).table u ≠ none
        simp [Space.table_setTable hentry]
    · exact ⟨false, m', s, by simp only [halloc], grows_of_none hm', by simp⟩

/-- The walk adds the tables that are missing above a page, as far as there are frames. -/
lemma walkToPt_spec (m : Pmm) (s : Space) (v : ℕ) :
    ∃ ok m' s', walkToPt m s v = (ok, m', s') ∧ Grows (v / 512) (m, s) (m', s') ∧
      (ok = true → s'.table (v / 512) ≠ none) := by
  obtain ⟨ok1, m1, s1, hwalk1, hgrows1, hentry⟩ := ensurePd_spec m s (v / 512)
  unfold walkToPt
  cases ok1 with
  | false => exact ⟨false, m1, s1, by rw [hwalk1], hgrows1, by simp⟩
  | true =>
    obtain ⟨ok2, m2, s2, hwalk2, hgrows2, htable⟩ := ensureTable_spec m1 s1 (v / 512) (hentry rfl)
    exact ⟨ok2, m2, s2, by simp only [hwalk1, hwalk2], hgrows1.trans hgrows2, htable⟩

variable {f : ℕ} {flags : PteFlags} {freeFrame : Bool} {e : Pte}

namespace Grows

variable {a b : Pmm × Space}

lemma leaf (h : Grows u a b) : b.2.leaf = a.2.leaf := by
  induction h with
  | refl => rfl
  | tail _ hgrow ih =>
    cases hgrow with
    | lost => exact ih
    | table _ _ _ _ _ _ hleaf _ => exact hleaf.trans ih

lemma total (h : Grows u a b) : b.1.total = a.1.total := by
  induction h with
  | refl => rfl
  | tail _ hgrow ih =>
    cases hgrow with
    | lost htook | table _ htook => exact htook.total.trans ih

/-- Frames that are used stay used. -/
lemma used (h : Grows u a b) (hf : a.1.used f = true) : b.1.used f = true := by
  induction h with
  | refl => exact hf
  | tail _ hgrow ih =>
    cases hgrow with
    | lost htook | table _ htook =>
      rw [htook.used, update_apply, ih]
      simp

end Grows

/-! ## Mapping and unmapping -/

/-- `paging_map` of a page that is absent puts the page in once the tables above it are there. -/
theorem pagingMap_spec (m : Pmm) (flags : PteFlags) (h : s.leaf v = none) :
    ∃ m' s', Grows (v / 512) (m, s) (m', s') ∧
      (pagingMap m s v f flags = .ok (false, m', s') ∨
        s'.table (v / 512) ≠ none ∧
          pagingMap m s v f flags = .ok (true, m', s'.withPage v f flags)) := by
  obtain ⟨ok, m', s', hwalk, hgrows, htable⟩ := walkToPt_spec m s v
  refine ⟨m', s', hgrows, ?_⟩
  unfold pagingMap
  cases ok with
  | false => exact .inl (by rw [hwalk])
  | true =>
    refine .inr ⟨htable rfl, ?_⟩
    have hleaf : s'.leaf v = none := (congrFun hgrows.leaf v).trans h
    simp only [hwalk, hleaf]

/-- A page that is present has its tables, and `paging_map` finds it there. -/
lemma pagingMap_present (m : Pmm) (f : ℕ) (flags : PteFlags) (h : s.leaf v ≠ none) :
    pagingMap m s v f flags = .error (.alreadyMapped v) := by
  have htable := Space.table_ne_none_of_leaf h
  obtain ⟨d, hd⟩ := ne_none_iff_exists'.mp (Space.entry_ne_none_of_table htable)
  obtain ⟨t, ht⟩ := ne_none_iff_exists'.mp htable
  obtain ⟨e, he⟩ := ne_none_iff_exists'.mp h
  simp only [pagingMap, walkToPt, ensurePd, hd, ensureTable, ht, he]

/-- The three ways `paging_map_alloc` of an absent page can end. -/
inductive Mapped (m : Pmm) (s : Space) (v : ℕ) (flags : PteFlags) :
    Bool → Pmm → Space → Prop
  | noFrame {m' : Pmm} : m' = m ∨ m.Took 0 m' → Mapped m s v flags false m' s
  | noTable {m₁ m₂ m' : Pmm} {s' : Space} {f : ℕ} : f ≠ 0 → m.Took f m₁ →
      Grows (v / 512) (m₁, s) (m₂, s') → m₂.Gave [f] m' → Mapped m s v flags false m' s'
  | done {m₁ m₂ : Pmm} {s' : Space} {f : ℕ} : f ≠ 0 → m.Took f m₁ →
      Grows (v / 512) (m₁, s) (m₂, s') →
      s'.table (v / 512) ≠ none →
      Mapped m s v flags true m₂ (s'.withPage v f flags)

/-- `paging_map_alloc` maps a fresh frame, or leaves the page as it was. -/
theorem pagingMapAlloc_spec (m : Pmm) (flags : PteFlags) (h : s.leaf v = none) :
    ∃ ok m' s', pagingMapAlloc m s v flags = .ok (ok, m', s') ∧
      Mapped m s v flags ok m' s' := by
  unfold pagingMapAlloc
  rcases m.allocFrame_cases with ⟨f, m1, halloc, hf, htook⟩ | ⟨m', halloc, hm'⟩
  · obtain ⟨m2, s', hgrows, hmap | ⟨htable, hmap⟩⟩ :=
      pagingMap_spec m1 (s := s) (v := v) (f := f) flags h
    · -- The frame that was taken is given back.
      have hused : m2.used f = true := hgrows.used (by simp [htook.used])
      have hlt : f < m2.total := by
        have htotal : m2.total = m1.total := hgrows.total
        rw [htotal, htook.total]
        exact htook.lt
      obtain ⟨m', hfree, hgave⟩ := Pmm.freeFrame_ok hlt hused
      exact ⟨false, m', s', by simp only [halloc, hmap, hfree], .noTable hf htook hgrows hgave⟩
    · exact ⟨true, _, _, by simp only [halloc, hmap], .done hf htook hgrows htable⟩
  · exact ⟨false, m', s, by simp only [halloc], .noFrame hm'⟩

/-- `paging_map_alloc` panics on a page that is present, unless there is no frame for it. -/
lemma pagingMapAlloc_cases (m : Pmm) (s : Space) (v : ℕ) (flags : PteFlags) :
    pagingMapAlloc m s v flags = .error (.alreadyMapped v) ∧ s.leaf v ≠ none ∨
      ∃ ok m' s', pagingMapAlloc m s v flags = .ok (ok, m', s') ∧
        Mapped m s v flags ok m' s' ∧ (ok = true → s.leaf v = none) := by
  by_cases h : s.leaf v = none
  · obtain ⟨ok, m', s', hmap, hmapped⟩ := pagingMapAlloc_spec m flags h
    exact .inr ⟨ok, m', s', hmap, hmapped, fun _ => h⟩
  unfold pagingMapAlloc
  rcases m.allocFrame_cases with ⟨f, m1, halloc, -, -⟩ | ⟨m', halloc, hm'⟩
  · exact .inl ⟨by simp only [halloc, pagingMap_present m1 f flags h], h⟩
  · exact .inr ⟨false, m', s, by simp only [halloc], .noFrame hm', by simp⟩

/-- What `paging_map_alloc` does to the pages of a space. -/
lemma Mapped.leaf {ok : Bool} (h : Mapped m s v flags ok m' s')
    (w : ℕ) : s'.leaf w = s.leaf w ∨ ok = true ∧ w = v ∧ ∃ f, s'.leaf w = some ⟨f, flags⟩ := by
  cases h with
  | noFrame => exact .inl rfl
  | noTable _ _ hgrows => exact .inl (congrFun hgrows.leaf w)
  | @done m1 m2 s1 f _ _ hgrows htable =>
    have hleaf : (s1.withPage v f flags).leaf w = if w = v then some ⟨f, flags⟩ else s1.leaf w :=
      Space.leaf_setLeaf htable _ w
    by_cases hw : w = v
    · exact .inr ⟨rfl, hw, f, by rw [hleaf, if_pos hw]⟩
    · rw [hleaf, if_neg hw]
      exact .inl (congrFun hgrows.leaf w)

lemma Mapped.leaf_ne_none (h : Mapped m s v flags true m' s') : s'.leaf v ≠ none := by
  cases h with
  | @done m1 m2 s1 f _ _ hgrows htable =>
    change (s1.setLeaf v _).leaf v ≠ none
    simp [Space.leaf_setLeaf htable]

theorem unmap_keep (h : s.leaf v = some e) :
    unmap m s v false = .ok (m, s.withoutPage v e) := by
  simp [unmap, h, Space.withoutPage]

lemma unmap_none (h : s.leaf v = none) (freeFrame : Bool) :
    unmap m s v freeFrame = .ok (m, s) := by
  simp [unmap, h]

lemma unmap_error {e : Panic} (h : unmap m s v freeFrame = .error e) :
    ∃ f, e = .doubleFree f := by
  cases hv : s.leaf v with
  | none =>
    rw [unmap_none hv] at h
    cases h
  | some x =>
    simp only [unmap, hv] at h
    split_ifs at h
    cases hfree : m.freeFrame x.frame with
    | error e' =>
      simp only [hfree, Except.error.injEq] at h
      exact ⟨x.frame, h ▸ Pmm.freeFrame_error hfree⟩
    | ok m1 => simp [hfree] at h

/-- Only the page that is unmapped changes. -/
lemma unmap_leaf (h : unmap m s v freeFrame = .ok (m', s')) (w : ℕ) :
    s'.leaf w = if w = v then none else s.leaf w := by
  cases hv : s.leaf v with
  | none =>
    rw [unmap_none hv] at h
    cases h
    split_ifs with hw
    · rw [hw, hv]
    · rfl
  | some e =>
    have hs' : s' = s.withoutPage v e := by
      simp only [unmap, hv] at h
      split_ifs at h
      · cases hfree : m.freeFrame e.frame with
        | error err => simp [hfree] at h
        | ok m1 =>
          simp only [hfree, Except.ok.injEq, Prod.mk.injEq] at h
          exact h.2.symm
      · simp only [Except.ok.injEq, Prod.mk.injEq] at h
        exact h.2.symm
    rw [hs']
    exact Space.leaf_setLeaf (Space.table_ne_none_of_leaf (by simp [hv])) none w

/-! ## The loop -/

/-- Some pages from `lo` up to `hi` were added to a space, each for the user and writable. -/
structure Extends (s s' : Space) (lo hi : ℕ) : Prop where
  old (w : ℕ) (e : Pte) : s.leaf w = some e → s'.leaf w = some e
  new (w : ℕ) : s.leaf w = none → s'.leaf w ≠ none →
    lo ≤ w ∧ w < hi ∧ ∃ f, s'.leaf w = some ⟨f, userWrite⟩

/-- One round of the loop: `paging_map_alloc`, which puts a page in only where there is none. -/
def MapStep (lo hi : ℕ) (a b : Pmm × Space) : Prop :=
  ∃ v ok, lo ≤ v ∧ v < hi ∧ (ok = true → a.2.leaf v = none) ∧
    Mapped a.1 a.2 v userWrite ok b.1 b.2

/-- Some rounds of the loop. -/
abbrev MapSteps (lo hi : ℕ) := Relation.ReflTransGen (MapStep lo hi)

variable {lo hi : ℕ} {a b : Pmm × Space}

lemma MapSteps.extends (h : MapSteps lo hi a b) : Extends a.2 b.2 lo hi := by
  induction h with
  | refl => exact ⟨fun _ _ => id, fun _ hnone hne => absurd hnone hne⟩
  | @tail b c _ hstep ih =>
    obtain ⟨v, ok, hlo, hhi, hv, hmapped⟩ := hstep
    refine ⟨fun w e he => ?_, fun w hnone hne => ?_⟩
    · rcases hmapped.leaf w with heq | ⟨hok, rfl, -⟩
      · rw [heq]
        exact ih.old w e he
      · simp [ih.old w e he] at hv
        exact absurd hok (by simp [hv])
    · rcases hmapped.leaf w with heq | ⟨-, rfl, f, hf⟩
      · rw [heq] at hne ⊢
        exact ih.new w hnone hne
      · exact ⟨hlo, hhi, f, hf⟩

lemma Extends.leaf_ne_none {s s' : Space} {v : ℕ} (h : Extends s s' lo hi)
    (hv : s.leaf v ≠ none) : s'.leaf v ≠ none := by
  obtain ⟨e, he⟩ := ne_none_iff_exists'.mp hv
  simp [h.old v e he]

lemma MapSteps.mono {lo' hi' : ℕ} (hrange : ∀ v, lo ≤ v → v < hi → lo' ≤ v ∧ v < hi')
    (h : MapSteps lo hi a b) : MapSteps lo' hi' a b := by
  refine Relation.ReflTransGen.mono (fun a b hstep => ?_) a b h
  obtain ⟨v, ok, hv, hv', hrest⟩ := hstep
  exact ⟨v, ok, (hrange v hv hv').1, (hrange v hv hv').2, hrest⟩

/-- The loop runs into a page that is present, if it does not step over those, or it does not panic.
Where it succeeds, every page of the range is present. -/
lemma mapRange_cases (skip : Bool) (n v : ℕ) (m : Pmm) (s : Space) :
    (∃ w, mapRange skip n v m s = .error (.alreadyMapped w) ∧ skip = false ∧ v ≤ w ∧ w < v + n ∧
      s.leaf w ≠ none) ∨
    ∃ ok pages m' s', mapRange skip n v m s = .ok (ok, pages, m', s') ∧
      MapSteps v (v + n) (m, s) (m', s') ∧
      (∀ w ∈ pages, v ≤ w ∧ w < v + n ∧ s'.leaf w ≠ none) ∧
      (ok = true → ∀ w, v ≤ w → w < v + n → s'.leaf w ≠ none) := by
  induction n generalizing v m s with
  | zero =>
    exact .inr ⟨true, [], m, s, rfl, .refl, by simp, fun _ w hw hw' => absurd hw' (by omega)⟩
  | succ n ih =>
    rw [mapRange]
    split_ifs with hskip
    · -- A page that is present is stepped over.
      rcases ih (v + 1) m s with ⟨w, -, hnot, -⟩ | ⟨ok, pages, m', s', heq, hsteps, hpages, hall⟩
      · simp [hskip.1] at hnot
      refine .inr ⟨ok, pages, m', s', heq, ?_, fun w hw => ?_, fun hok w hw hw' => ?_⟩
      · exact MapSteps.mono (fun _ _ _ => by omega) hsteps
      · obtain ⟨hlo, hhi, hne⟩ := hpages w hw
        exact ⟨by omega, by omega, hne⟩
      · rcases Nat.eq_or_lt_of_le hw with rfl | hlt
        · exact (MapSteps.extends hsteps).leaf_ne_none (isSome_iff_ne_none.mp hskip.2)
        · exact hall hok w hlt (by omega)
    · rcases pagingMapAlloc_cases m s v userWrite with ⟨hmap, hv⟩ |
        ⟨ok, m1, s1, hmap, hmapped, hv⟩
      · refine .inl ⟨v, by rw [hmap], ?_, le_rfl, by omega, hv⟩
        simpa [hv] using hskip
      have hstep : MapStep v (v + (n + 1)) (m, s) (m1, s1) :=
        ⟨v, ok, le_rfl, by omega, hv, hmapped⟩
      cases ok with
      | false => exact .inr ⟨false, [], m1, s1, by rw [hmap], .single hstep, by simp, by simp⟩
      | true =>
        have hother : ∀ w, w ≠ v → s1.leaf w = s.leaf w := fun w hw =>
          (hmapped.leaf w).resolve_right fun h => hw h.2.1
        rcases ih (v + 1) m1 s1 with ⟨w, heq, hnot, hw, hw', hpresent⟩ |
          ⟨ok, pages, m', s', heq, hsteps, hpages, hall⟩
        · exact .inl ⟨w, by simp only [hmap, heq], hnot, by omega, by omega,
            hother w (by omega) ▸ hpresent⟩
        have hpresent : s'.leaf v ≠ none :=
          (MapSteps.extends hsteps).leaf_ne_none hmapped.leaf_ne_none
        refine .inr ⟨ok, v :: pages, m', s', by simp only [hmap, heq], .head hstep ?_,
          fun w hw => ?_, fun hok w hw hw' => ?_⟩
        · exact MapSteps.mono (fun _ _ _ => by omega) hsteps
        · rcases List.mem_cons.mp hw with rfl | hw
          · exact ⟨le_rfl, by omega, hpresent⟩
          · obtain ⟨hlo, hhi, hne⟩ := hpages w hw
            exact ⟨by omega, by omega, hne⟩
        · rcases Nat.eq_or_lt_of_le hw with rfl | hlt
          · exact hpresent
          · exact hall hok w hlt (by omega)

/-- The loop does not panic when it steps over present pages or finds none. -/
theorem mapRange_spec {b : Bool} {n v : ℕ} (m : Pmm)
    (h : b = true ∨ ∀ w, v ≤ w → w < v + n → s.leaf w = none) :
    ∃ ok pages m' s', mapRange b n v m s = .ok (ok, pages, m', s') ∧
      MapSteps v (v + n) (m, s) (m', s') ∧
      (∀ w ∈ pages, v ≤ w ∧ w < v + n ∧ s'.leaf w ≠ none) ∧
      (ok = true → ∀ w, v ≤ w → w < v + n → s'.leaf w ≠ none) := by
  refine (mapRange_cases b n v m s).resolve_left ?_
  rintro ⟨w, -, hskip, hw, hw', hpresent⟩
  rcases h with h | hnone
  · simp [hskip] at h
  · exact hpresent (hnone w hw hw')

end Wos.Mm
