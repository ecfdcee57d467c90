import Mathlib.Data.Fintype.Card
import Wos.Abi
import Wos.Mm.Paging

/-!
# Shared memory and the memory of a process

`kernel/mm/shm.c`, and `proc_sbrk` and the stack of `kernel/proc/proc.c`: what changes the pages of a
process after it was loaded. A shared object is a fixed list of frames with a count of references;
a process maps it at the lowest place of its window that its other mappings leave free. Addresses in
the window are page aligned and mappings are kept as page numbers.

Objects are named by numbers, which stand for pointers.

## Main definitions

* `Shm`, `Shms`, `Mapping`, `ProcMem`;
* `shmCreate`, `shmRef`, `shmUnref`: the object;
* `findRegion`, `shmMap`, `shmUnmap`, `shmUnmapAll`: mappings;
* `procSbrk`, `mapStack`: the heap and the stack.

## Main results

* `findRegion_spec`: the search ends, at a place that overlaps no mapping;
* `shmMap_spec`, `shmUnmap_cases`: what mapping and unmapping do to the pages.
-/

namespace Wos.Mm

open List

/-- `SHM_MAX_BYTES`. -/
def shmMaxBytes : ℕ := 32 * 1024 * 1024

/-- `SHM_MAX_MAPPINGS`. -/
def shmMaxMappings : ℕ := 32

instance : NeZero shmMaxMappings := ⟨Nat.succ_ne_zero _⟩

/-- `struct shm`. -/
structure Shm where
  refs : ℕ
  frames : List ℕ

/-- The objects there are. -/
abbrev Shms := ℕ → Option Shm

/-- `shm_mapping_t`, with the page it starts at. -/
structure Mapping where
  shm : ℕ
  base : ℕ
  pages : ℕ
  deriving DecidableEq

/-- A mapping covers a page. -/
def Mapping.Covers (x : Mapping) (v : ℕ) : Prop := x.base ≤ v ∧ v < x.base + x.pages

instance (x : Mapping) (v : ℕ) : Decidable (x.Covers v) := inferInstanceAs (Decidable (_ ∧ _))

/-- The mappings of a process. -/
abbrev Maps := Fin shmMaxMappings → Option Mapping

/-- What `process_t` says about the memory of a process. -/
structure ProcMem where
  space : Space
  maps : Maps
  heapStart : ℕ
  heapBreak : ℕ

/-! ## The object -/

/-- The loop of `shm_create`, with the frames taken so far. -/
def takeFrames : ℕ → List ℕ → Pmm → Except Panic (Option (List ℕ) × Pmm)
  | 0, taken, m => .ok (some taken, m)
  | n + 1, taken, m =>
    match m.allocFrame with
    | (none, m) =>
      match m.freeFrames taken with
      | .error e => .error e
      | .ok m => .ok (none, m)
    | (some f, m) => takeFrames n (taken ++ [f]) m

/-- `shm_create`; `heapOk` says whether the kernel heap has room for the object. -/
def shmCreate (m : Pmm) (bytes : ℕ) (heapOk : Bool) : Except Panic (Option Shm × Pmm) :=
  if bytes = 0 ∨ shmMaxBytes < bytes ∨ heapOk = false then .ok (none, m)
  else
    match takeFrames ((bytes + (pageSize - 1)) / pageSize) [] m with
    | .error e => .error e
    | .ok (none, m) => .ok (none, m)
    | .ok (some frames, m) => .ok (some ⟨1, frames⟩, m)

/-- `shm_ref`. -/
def shmRef (shms : Shms) (o : ℕ) : Shms :=
  Function.update shms o ((shms o).map fun sh => { sh with refs := sh.refs + 1 })

/-- `shm_unref`. -/
def shmUnref (m : Pmm) (shms : Shms) (o : ℕ) : Except Panic (Pmm × Shms) :=
  match shms o with
  | none => .ok (m, shms)
  | some sh =>
    if 0 < sh.refs - 1 then
      .ok (m, Function.update shms o (some { sh with refs := sh.refs - 1 }))
    else
      match m.freeFrames sh.frames with
      | .error e => .error e
      | .ok m => .ok (m, Function.update shms o none)

/-! ## Mappings -/

/-- One mapping in the sweep of `find_region`: the place moves behind a mapping it overlaps. -/
def stepOver (want : ℕ) (place : ℕ × Bool) (x : Option Mapping) : ℕ × Bool :=
  match x with
  | none => place
  | some x =>
    if place.1 < x.base + x.pages ∧ x.base < place.1 + want then (x.base + x.pages, true)
    else place

/-- One sweep of `find_region` over the mappings. -/
def sweep (maps : Maps) (want base : ℕ) : ℕ × Bool :=
  (List.ofFn maps).foldl (stepOver want) (base, false)

/-- The sweeps of `find_region`, until nothing moves. -/
def sweeps (maps : Maps) (want : ℕ) : ℕ → ℕ → ℕ
  | 0, base => base
  | n + 1, base =>
    if (sweep maps want base).2 then sweeps maps want n (sweep maps want base).1
    else (sweep maps want base).1

/-- `find_region`. Every sweep but the last leaves another mapping behind, so there are at most 33.
The window is far from the end of the address space and the sums do not wrap around. -/
def findRegion (maps : Maps) (pages : ℕ) : Option ℕ :=
  let base := sweeps maps pages (shmMaxMappings + 1) (userMmapBase / pageSize)
  if userMmapTop / pageSize < base + pages then none else some base

/-- The loop of `shm_map`: the frames are mapped one after the other from page `v` on. The pages that
went in are counted. -/
def mapFrames : List ℕ → ℕ → Pmm → Space → Except Panic (Bool × ℕ × Pmm × Space)
  | [], _, m, s => .ok (true, 0, m, s)
  | f :: fs, v, m, s =>
    match pagingMap m s v f userWrite with
    | .error e => .error e
    | .ok (false, m, s) => .ok (false, 0, m, s)
    | .ok (true, m, s) =>
      match mapFrames fs (v + 1) m s with
      | .error e => .error e
      | .ok (ok, n, m, s) => .ok (ok, n + 1, m, s)

/-- The loops with which `proc_sbrk` and `shm_unmap` take out `n` pages from `v` on. -/
def unmapRange (freeFrame : Bool) : ℕ → ℕ → Pmm → Space → Except Panic (Pmm × Space)
  | 0, _, m, s => .ok (m, s)
  | n + 1, v, m, s =>
    match unmap m s v freeFrame with
    | .error e => .error e
    | .ok (m, s) => unmapRange freeFrame n (v + 1) m s

/-- A slot of the table of mappings that is not used. -/
def freeSlot (maps : Maps) : Option (Fin shmMaxMappings) :=
  (List.finRange shmMaxMappings).find? fun i => (maps i).isNone

/-- `shm_map`, with the page it maps the object at. -/
def shmMap (m : Pmm) (shms : Shms) (p : ProcMem) (o : ℕ) :
    Except Panic (Except Errno ℕ × Pmm × Shms × ProcMem) :=
  match shms o with
  | none => .ok (.error .EINVAL, m, shms, p)
  | some sh =>
    match freeSlot p.maps with
    | none => .ok (.error .EMFILE, m, shms, p)
    | some i =>
      match findRegion p.maps sh.frames.length with
      | none => .ok (.error .ENOMEM, m, shms, p)
      | some base =>
        match mapFrames sh.frames base m p.space with
        | .error e => .error e
        | .ok (false, n, m, s) =>
          -- The part that went in is undone; the frames stay with the object.
          match unmapRange false n base m s with
          | .error e => .error e
          | .ok (m, s) => .ok (.error .ENOMEM, m, shms, { p with space := s })
        | .ok (true, _, m, s) =>
          .ok (.ok base, m, shmRef shms o, { p with
            space := s, maps := Function.update p.maps i (some ⟨o, base, sh.frames.length⟩) })

/-- The mapping that starts at an address. -/
def mappingAt (maps : Maps) (addr : ℕ) : Option (Fin shmMaxMappings × Mapping) :=
  (List.finRange shmMaxMappings).findSome? fun i =>
    (maps i).bind fun x => if x.base * pageSize = addr then some (i, x) else none

/-- `shm_unmap`. -/
def shmUnmap (m : Pmm) (shms : Shms) (p : ProcMem) (addr : ℕ) :
    Except Panic (Option Errno × Pmm × Shms × ProcMem) :=
  match mappingAt p.maps addr with
  | none => .ok (some .EINVAL, m, shms, p)
  | some (i, x) =>
    match unmapRange false x.pages x.base m p.space with
    | .error e => .error e
    | .ok (m, s) =>
      match shmUnref m shms x.shm with
      | .error e => .error e
      | .ok (m, shms) =>
        .ok (none, m, shms, { p with space := s, maps := Function.update p.maps i none })

/-- The loop of `shm_unmap_all` over the given slots. -/
def unmapSlots : List (Fin shmMaxMappings) → Pmm → Shms → ProcMem →
    Except Panic (Pmm × Shms × ProcMem)
  | [], m, shms, p => .ok (m, shms, p)
  | i :: is, m, shms, p =>
    match p.maps i with
    | none => unmapSlots is m shms p
    | some x =>
      match shmUnmap m shms p (x.base * pageSize) with
      | .error e => .error e
      | .ok (_, m, shms, p) => unmapSlots is m shms p

/-- `shm_unmap_all`. -/
def shmUnmapAll (m : Pmm) (shms : Shms) (p : ProcMem) : Except Panic (Pmm × Shms × ProcMem) :=
  unmapSlots (List.finRange shmMaxMappings) m shms p

/-! ## The heap and the stack -/

/-- `proc_sbrk`; `none` is the value -1 it returns when it fails. -/
def procSbrk (m : Pmm) (p : ProcMem) (increment : ℤ) :
    Except Panic (Option ℕ × Pmm × ProcMem) :=
  let old := p.heapBreak
  if increment = 0 then .ok (some old, m, p)
  else if 0 < increment then
    let new := (old + increment.toNat) % wordSize
    if userMmapBase < new then .ok (none, m, p)
    else
      match mapRange true ((alignUp new - alignUp old) / pageSize) (alignUp old / pageSize) m
        p.space with
      | .error e => .error e
      -- The pages that went in stay, with the break where it was.
      | .ok (false, _, m, s) => .ok (none, m, { p with space := s })
      | .ok (true, _, m, s) => .ok (some old, m, { p with space := s, heapBreak := new })
  else
    let shrink := (-increment).toNat
    if (wordSize + old - p.heapStart) % wordSize < shrink then .ok (none, m, p)
    else
      let new := old - shrink
      match unmapRange true ((alignUp old - alignUp new) / pageSize) (alignUp new / pageSize) m
        p.space with
      | .error e => .error e
      | .ok (m, s) => .ok (some old, m, { p with space := s, heapBreak := new })

/-- The first page of the stack. -/
def stackPage : ℕ := (userStackTop - userStackSize) / pageSize

/-- The loop of `proc_spawn_io` that maps the stack. -/
def mapStack (m : Pmm) (s : Space) : Except Panic (Bool × Pmm × Space) :=
  match mapRange false (userStackSize / pageSize) stackPage m s with
  | .error e => .error e
  | .ok (ok, _, m, s) => .ok (ok, m, s)

variable {m m' : Pmm}

variable {v n lo hi want f : ℕ} {s' : Space} {shms shms' : Shms} {ok freeFrame : Bool}
  {a b : Pmm × Space} {e : Panic} {x : Mapping} {p p' : ProcMem}

/-! ## The search for a place -/

/-- Some pages from `base` on overlap a mapping. -/
def Mapping.Overlaps (x : Mapping) (base want : ℕ) : Prop :=
  base < x.base + x.pages ∧ x.base < base + want

/-- What a sweep over some mappings does to a place. -/
lemma sweep_spec (l : List (Option Mapping)) (want base : ℕ) (moved : Bool) :
    let r := l.foldl (stepOver want) (base, moved)
    base ≤ r.1 ∧
      (r.2 = true → moved = true ∨ ∃ x, some x ∈ l ∧ base < x.base + x.pages ∧
        x.base + x.pages ≤ r.1) ∧
      (r.2 = false → moved = false ∧ r.1 = base ∧ ∀ x, some x ∈ l → ¬ x.Overlaps base want) := by
  induction l generalizing base moved with
  | nil => simp
  | cons y l ih =>
    rw [foldl_cons]
    by_cases hover : ∃ x, y = some x ∧ x.Overlaps base want
    · -- The place moves behind the mapping.
      obtain ⟨x, rfl, hover⟩ := hover
      have hstep : stepOver want (base, moved) (some x) = (x.base + x.pages, true) := if_pos hover
      obtain ⟨hle, hmoved, hstill⟩ := ih (x.base + x.pages) true
      rw [hstep]
      refine ⟨hover.1.le.trans hle, fun _ => .inr ⟨x, by simp, hover.1, hle⟩, fun hr => ?_⟩
      exact absurd (hstill hr).1 (by simp)
    · have hstep : stepOver want (base, moved) y = (base, moved) := by
        cases y with
        | none => rfl
        | some x => exact if_neg fun hx => hover ⟨x, rfl, hx⟩
      obtain ⟨hle, hmoved, hstill⟩ := ih base moved
      rw [hstep]
      refine ⟨hle, fun hr => (hmoved hr).imp_right ?_, fun hr => ?_⟩
      · rintro ⟨x, hx, hlt, hend⟩
        exact ⟨x, mem_cons_of_mem _ hx, hlt, hend⟩
      obtain ⟨hm, hbase, hall⟩ := hstill hr
      refine ⟨hm, hbase, fun x hx hx' => ?_⟩
      rcases mem_cons.mp hx with hx | hx
      · exact hover ⟨x, hx.symm, hx'⟩
      · exact hall x hx hx'

/-- The mappings that end behind a place. -/
def ahead (maps : Maps) (base : ℕ) : Finset (Fin shmMaxMappings) :=
  Finset.univ.filter fun i => ∃ x ∈ maps i, base < x.base + x.pages

variable {maps : Maps} {i : Fin shmMaxMappings}

lemma mem_ahead {base : ℕ} :
    i ∈ ahead maps base ↔ ∃ x, maps i = some x ∧ base < x.base + x.pages := by
  simp [ahead]

/-- A sweep that moves the place leaves a mapping behind. -/
lemma card_ahead_sweep_lt {base : ℕ} (h : (sweep maps want base).2 = true) :
    (ahead maps (sweep maps want base).1).card < (ahead maps base).card := by
  obtain ⟨hle, hmoved, -⟩ := sweep_spec (ofFn maps) want base false
  obtain ⟨x, hx, hlt, hend⟩ := (hmoved h).resolve_left (by simp)
  obtain ⟨i, hi⟩ := (mem_ofFn' _ _).mp hx
  refine Finset.card_lt_card ((Finset.ssubset_iff_of_subset fun j hj => ?_).mpr
    ⟨i, mem_ahead.mpr ⟨x, hi, hlt⟩, fun hmem => ?_⟩)
  · obtain ⟨y, hy, hylt⟩ := mem_ahead.mp hj
    exact mem_ahead.mpr ⟨y, hy, hle.trans_lt hylt⟩
  obtain ⟨y, hy, hylt⟩ := mem_ahead.mp hmem
  rw [hi] at hy
  cases hy
  exact absurd hend (not_le.mpr hylt)

/-- With a sweep more than there are mappings ahead, the sweeps end at a place that overlaps none. -/
lemma sweeps_spec {base : ℕ} (h : (ahead maps base).card < n) :
    base ≤ sweeps maps want n base ∧
      ∀ i x, maps i = some x → ¬ x.Overlaps (sweeps maps want n base) want := by
  induction n generalizing base with
  | zero => omega
  | succ n ih =>
    obtain ⟨hle, -, hstill⟩ := sweep_spec (ofFn maps) want base false
    rw [sweeps]
    split_ifs with hmoved
    · have hlt := card_ahead_sweep_lt hmoved
      have hcard : (ahead maps (sweep maps want base).1).card < n := by omega
      obtain ⟨hle', hall⟩ := ih hcard
      exact ⟨hle.trans hle', hall⟩
    · obtain ⟨-, hbase, hall⟩ := hstill (Bool.not_eq_true _ ▸ hmoved)
      refine ⟨hle, fun i x hx => ?_⟩
      have hbase' : (sweep maps want base).1 = base := hbase
      rw [hbase']
      exact hall x ((mem_ofFn' _ _).mpr ⟨i, hx⟩)

/-- The place `find_region` finds is in the window and overlaps no mapping. -/
theorem findRegion_spec {pages base : ℕ} (h : findRegion maps pages = some base) :
    userMmapBase / pageSize ≤ base ∧ base + pages ≤ userMmapTop / pageSize ∧
      ∀ i x, maps i = some x → ¬ x.Overlaps base pages := by
  have hcard : (ahead maps (userMmapBase / pageSize)).card < shmMaxMappings + 1 :=
    Nat.lt_succ_of_le ((Finset.card_le_univ _).trans (by simp))
  obtain ⟨hle, hall⟩ := sweeps_spec hcard
  simp only [findRegion] at h
  split_ifs at h with htop
  cases h
  exact ⟨hle, not_lt.mp htop, hall⟩

/-! ## What the loops do to the pages -/

/-- `paging_map` either adds tables only, or a page as well. -/
inductive Put (m : Pmm) (s : Space) (v f : ℕ) : Bool → Pmm → Space → Prop
  | noTable {m' : Pmm} {s' : Space} : Grows (v / 512) (m, s) (m', s') → Put m s v f false m' s'
  | done {m' : Pmm} {s' : Space} : Grows (v / 512) (m, s) (m', s') → s'.table (v / 512) ≠ none →
      Put m s v f true m' (s'.withPage v f userWrite)

/-- `paging_map` of a page that is present is a panic. -/
lemma pagingMap_put (m : Pmm) (s : Space) (v f : ℕ) :
    pagingMap m s v f userWrite = .error (.alreadyMapped v) ∧ s.leaf v ≠ none ∨
      s.leaf v = none ∧
        ∃ ok m' s', pagingMap m s v f userWrite = .ok (ok, m', s') ∧ Put m s v f ok m' s' := by
  by_cases h : s.leaf v = none
  · obtain ⟨m', s', hgrows, hmap | ⟨htable, hmap⟩⟩ := pagingMap_spec m (f := f) userWrite h
    · exact .inr ⟨h, false, m', s', hmap, .noTable hgrows⟩
    · exact .inr ⟨h, true, m', _, hmap, .done hgrows htable⟩
  · exact .inl ⟨pagingMap_present m f userWrite h, h⟩

variable {s : Space}

lemma Put.leaf (h : Put m s v f ok m' s')
    (w : ℕ) : s'.leaf w = if ok = true ∧ w = v then some ⟨f, userWrite⟩ else s.leaf w := by
  cases h with
  | noTable hgrows => simpa using congrFun hgrows.leaf w
  | @done _ s1 hgrows htable =>
    have hleaf : (s1.withPage v f userWrite).leaf w = _ := Space.leaf_setLeaf htable _ w
    rw [hleaf]
    simp only [true_and]
    split_ifs
    · rfl
    · exact congrFun hgrows.leaf w

/-- A table was added above a page from `lo` up to `hi`, or such a page was put in or taken out without
a frame being taken or given back for it. -/
def EditStep (lo hi : ℕ) (a b : Pmm × Space) : Prop :=
  ∃ v, lo ≤ v ∧ v < hi ∧ (Grow (v / 512) a b ∨ ∃ e n, a.2.table (v / 512) ≠ none ∧
    b = (a.1, { a.2.setLeaf v e with userFrames := n }))

/-- Some such changes. -/
abbrev EditSteps (lo hi : ℕ) := Relation.ReflTransGen (EditStep lo hi)

lemma EditSteps.mono {lo' hi' : ℕ} (hlo : lo' ≤ lo) (hhi : hi ≤ hi')
    (h : EditSteps lo hi a b) : EditSteps lo' hi' a b := by
  refine Relation.ReflTransGen.mono (fun a b hstep => ?_) a b h
  obtain ⟨v, hv, hv', hrest⟩ := hstep
  exact ⟨v, hlo.trans hv, hv'.trans_le hhi, hrest⟩

lemma Grows.edits (h : Grows (v / 512) a b) (hlo : lo ≤ v) (hhi : v < hi) : EditSteps lo hi a b :=
  Relation.ReflTransGen.mono (fun _ _ hgrow => ⟨v, hlo, hhi, .inl hgrow⟩) a b h

lemma Put.edits (h : Put m s v f ok m' s') (hlo : lo ≤ v) (hhi : v < hi) :
    EditSteps lo hi (m, s) (m', s') := by
  cases h with
  | noTable hgrows => exact hgrows.edits hlo hhi
  | done hgrows htable =>
    exact (hgrows.edits hlo hhi).tail ⟨v, hlo, hhi, .inr ⟨_, _, htable, rfl⟩⟩

/-- `mapFrames` runs into a page that is present, or it puts in the first `n` frames, from page `v`
on. Until then it has come to `k` pages, at which there was nothing. -/
lemma mapFrames_spec (fs : List ℕ) (v : ℕ) (m : Pmm) (s : Space) :
    (∃ w, mapFrames fs v m s = .error (.alreadyMapped w) ∧ v ≤ w ∧ w < v + fs.length ∧
      s.leaf w ≠ none) ∨
    ∃ ok n k m' s', mapFrames fs v m s = .ok (ok, n, m', s') ∧ n ≤ k ∧ k ≤ fs.length ∧
      (ok = true → n = fs.length) ∧ EditSteps v (v + k) (m, s) (m', s') ∧
      (∀ w, v ≤ w → w < v + k → s.leaf w = none) ∧
      ∀ w, s'.leaf w =
        if v ≤ w ∧ w < v + n then (fs[w - v]?).map fun f => ⟨f, userWrite⟩ else s.leaf w := by
  induction fs generalizing v m s with
  | nil =>
    exact .inr ⟨true, 0, 0, m, s, rfl, le_rfl, le_rfl, fun _ => rfl, .refl, by omega,
      fun w => by rw [if_neg (by omega)]⟩
  | cons f fs ih =>
    rcases pagingMap_put m s v f with ⟨hmap, hv⟩ | ⟨hv, ok, m1, s1, hmap, hput⟩
    · exact .inl ⟨v, by simp only [mapFrames, hmap], le_rfl, by simp, hv⟩
    simp only [mapFrames, hmap]
    cases ok with
    | false =>
      refine .inr ⟨false, 0, 1, m1, s1, rfl, by simp, by simp, by simp,
        hput.edits le_rfl (by omega), fun w hw hw' => ?_, fun w => ?_⟩
      · rwa [show w = v by omega]
      · rw [hput.leaf, if_neg (by simp), if_neg (by omega)]
    | true =>
      have hother : ∀ w, w ≠ v → s1.leaf w = s.leaf w := fun w hw => by
        rw [hput.leaf, if_neg (by simp [hw])]
      rcases ih (v + 1) m1 s1 with ⟨w, hrec, hw, hw', hpresent⟩ |
        ⟨ok, n, k, m', s', hrec, hn, hk, hok, hedits, habsent, hleaf⟩
      · refine .inl ⟨w, by simp only [hrec], by omega, ?_, hother w (by omega) ▸ hpresent⟩
        simp only [length_cons]
        omega
      refine .inr ⟨ok, n + 1, k + 1, m', s', by simp only [hrec], by omega, by simpa using hk,
        fun h => by simp [hok h], ?_, fun w hw hw' => ?_, fun w => ?_⟩
      · exact (hput.edits le_rfl (by omega)).trans (EditSteps.mono (by omega) (by omega) hedits)
      · by_cases hwv : w = v
        · rw [hwv, hv]
        · rw [← hother w hwv]
          exact habsent w (by omega) (by omega)
      rw [hleaf w, hput.leaf w]
      by_cases hw : w = v
      · subst hw
        rw [if_neg (by omega), if_pos ⟨rfl, rfl⟩, if_pos (by omega)]
        simp
      · by_cases hin : v + 1 ≤ w ∧ w < v + 1 + n
        · rw [if_pos hin, if_pos (by omega), show w - v = w - (v + 1) + 1 by omega,
            getElem?_cons_succ]
        · rw [if_neg hin, if_neg (by simp [hw]), if_neg (by omega)]

/-- What taking out pages leaves of the others. -/
lemma unmapRange_leaf (h : unmapRange freeFrame n v m s = .ok (m', s')) (w : ℕ) :
    s'.leaf w = if v ≤ w ∧ w < v + n then none else s.leaf w := by
  induction n generalizing v m s with
  | zero =>
    cases h
    rw [if_neg (by omega)]
  | succ n ih =>
    rw [unmapRange] at h
    cases hunmap : unmap m s v freeFrame with
    | error e => simp [hunmap] at h
    | ok r =>
      simp only [hunmap] at h
      rw [ih h, unmap_leaf hunmap]
      split_ifs <;> first | rfl | omega

lemma unmapRange_error
    (h : unmapRange freeFrame n v m s = .error e) : ∃ f, e = .doubleFree f := by
  induction n generalizing v m s with
  | zero => cases h
  | succ n ih =>
    rw [unmapRange] at h
    cases hunmap : unmap m s v freeFrame with
    | error e' =>
      simp only [hunmap, Except.error.injEq] at h
      exact h ▸ unmap_error hunmap
    | ok r =>
      simp only [hunmap] at h
      exact ih h

lemma shmUnref_error {o : ℕ} (h : shmUnref m shms o = .error e) : ∃ f, e = .doubleFree f := by
  cases ho : shms o with
  | none => simp [shmUnref, ho] at h
  | some sh =>
    simp only [shmUnref, ho] at h
    split_ifs at h
    cases hfree : m.freeFrames sh.frames with
    | error e' =>
      simp only [hfree, Except.error.injEq] at h
      exact h ▸ Pmm.freeFrames_error hfree
    | ok m1 => simp [hfree] at h

/-- Taking out pages without their frames does not panic and leaves the frames alone. -/
lemma unmapRange_keep (n v : ℕ) (m : Pmm) (s : Space) :
    ∃ s', unmapRange false n v m s = .ok (m, s') ∧ EditSteps v (v + n) (m, s) (m, s') := by
  induction n generalizing v s with
  | zero => exact ⟨s, rfl, .refl⟩
  | succ n ih =>
    obtain ⟨s1, hunmap, hedit⟩ : ∃ s1, unmap m s v false = .ok (m, s1) ∧
        EditSteps v (v + (n + 1)) (m, s) (m, s1) := by
      cases hv : s.leaf v with
      | none => exact ⟨s, unmap_none hv false, .refl⟩
      | some e =>
        have htable := Space.table_ne_none_of_leaf (s := s) (v := v) (by simp [hv])
        exact ⟨_, unmap_keep hv, .single ⟨v, le_rfl, by omega, .inr ⟨none, _, htable, rfl⟩⟩⟩
    obtain ⟨s', hrec, hedits⟩ := ih (v + 1) s1
    exact ⟨s', by simp only [unmapRange, hunmap, hrec],
      hedit.trans (EditSteps.mono (by omega) (by omega) hedits)⟩

/-! ## Mapping and unmapping an object -/

/-- The three ways `shm_map` can end. -/
inductive ShmMapped (m : Pmm) (shms : Shms) (p : ProcMem) (o : ℕ) :
    Except Errno ℕ → Pmm → Shms → ProcMem → Prop
  | refused (e : Errno) : ShmMapped m shms p o (.error e) m shms p
  | undone {m' : Pmm} {space : Space} {base pages : ℕ} : userMmapBase / pageSize ≤ base →
      base + pages ≤ userMmapTop / pageSize →
      (∀ w, base ≤ w → w < base + pages → p.space.leaf w = none) →
      EditSteps base (base + pages) (m, p.space) (m', space) →
      space.leaf = p.space.leaf →
      ShmMapped m shms p o (.error .ENOMEM) m' shms { p with space }
  | done {m' : Pmm} {space : Space} {sh : Shm} {i : Fin shmMaxMappings} {base : ℕ} :
      shms o = some sh → p.maps i = none → userMmapBase / pageSize ≤ base →
      base + sh.frames.length ≤ userMmapTop / pageSize →
      (∀ w, base ≤ w → w < base + sh.frames.length → p.space.leaf w = none) →
      EditSteps base (base + sh.frames.length) (m, p.space) (m', space) →
      (∀ w, space.leaf w = if base ≤ w ∧ w < base + sh.frames.length then
        (sh.frames[w - base]?).map fun f => ⟨f, userWrite⟩ else p.space.leaf w) →
      ShmMapped m shms p o (.ok base) m' (shmRef shms o) { p with
        space, maps := Function.update p.maps i (some ⟨o, base, sh.frames.length⟩) }

lemma freeSlot_some (h : freeSlot maps = some i) : maps i = none := by
  have hnone := find?_some h
  simpa using hnone

/-- `shm_map` panics on a page of the window that is present and in no mapping; otherwise it ends in one
of the three ways. -/
theorem shmMap_spec (m : Pmm) (shms : Shms) (p : ProcMem) (o : ℕ) :
    (∃ w, shmMap m shms p o = .error (.alreadyMapped w) ∧ userMmapBase / pageSize ≤ w ∧
      w < userMmapTop / pageSize ∧ (∀ i x, p.maps i = some x → ¬ x.Covers w) ∧
      p.space.leaf w ≠ none) ∨
    ∃ r m' shms' p', shmMap m shms p o = .ok (r, m', shms', p') ∧
      ShmMapped m shms p o r m' shms' p' := by
  cases ho : shms o with
  | none => exact .inr ⟨_, m, shms, p, by simp only [shmMap, ho], .refused .EINVAL⟩
  | some sh =>
    cases hslot : freeSlot p.maps with
    | none => exact .inr ⟨_, m, shms, p, by simp only [shmMap, ho, hslot], .refused .EMFILE⟩
    | some i =>
      cases hregion : findRegion p.maps sh.frames.length with
      | none =>
        exact .inr ⟨_, m, shms, p, by simp only [shmMap, ho, hslot, hregion], .refused .ENOMEM⟩
      | some base =>
        obtain ⟨hlo, hhi, hover⟩ := findRegion_spec hregion
        rcases mapFrames_spec sh.frames base m p.space with ⟨w, hmap, hw, hw', hpresent⟩ |
          ⟨ok, n, k, m', space, hmap, hn, hk, hok, hedits, habsent, hleaf⟩
        · refine .inl ⟨w, by simp only [shmMap, ho, hslot, hregion, hmap], hlo.trans hw,
            hw'.trans_le hhi, fun j x hx hcovers => ?_, hpresent⟩
          exact hover j x hx ⟨hw.trans_lt hcovers.2, hcovers.1.trans_lt hw'⟩
        cases ok with
        | true =>
          obtain rfl := hok rfl
          obtain rfl : k = sh.frames.length := le_antisymm hk hn
          exact .inr ⟨_, _, _, _, by simp only [shmMap, ho, hslot, hregion, hmap],
            .done ho (freeSlot_some hslot) hlo hhi habsent hedits hleaf⟩
        | false =>
          -- Taking out what went in restores the pages: there were none at its place.
          obtain ⟨space', hunmap, hedits'⟩ := unmapRange_keep n base m' space
          refine .inr ⟨_, _, _, _, by simp only [shmMap, ho, hslot, hregion, hmap, hunmap],
            .undone hlo (by omega) habsent
              (hedits.trans (EditSteps.mono le_rfl (by omega) hedits')) ?_⟩
          funext w
          rw [unmapRange_leaf hunmap, hleaf]
          split_ifs with hin
          · exact (habsent w hin.1 (by omega)).symm
          · rfl

lemma mappingAt_some {addr : ℕ}
    (h : mappingAt maps addr = some (i, x)) : maps i = some x ∧ x.base * pageSize = addr := by
  obtain ⟨j, -, hj⟩ := exists_of_findSome?_eq_some h
  obtain ⟨y, hy, hat⟩ := Option.bind_eq_some_iff.mp hj
  split_ifs at hat with haddr
  cases hat
  exact ⟨hy, haddr⟩

/-- `shm_unmap` either finds no mapping, or takes out the pages of one and then gives its reference
back. -/
theorem shmUnmap_cases (m : Pmm) (shms : Shms) (p : ProcMem) (addr : ℕ) :
    mappingAt p.maps addr = none ∧ shmUnmap m shms p addr = .ok (some .EINVAL, m, shms, p) ∨
      ∃ i x space, p.maps i = some x ∧ x.base * pageSize = addr ∧
        EditSteps x.base (x.base + x.pages) (m, p.space) (m, space) ∧
        (∀ w, space.leaf w = if x.Covers w then none else p.space.leaf w) ∧
        shmUnmap m shms p addr =
          match shmUnref m shms x.shm with
          | .error e => .error e
          | .ok (m', shms') => .ok (none, m', shms',
            { p with space, maps := Function.update p.maps i none }) := by
  cases hat : mappingAt p.maps addr with
  | none => exact .inl ⟨rfl, by simp only [shmUnmap, hat]⟩
  | some r =>
    obtain ⟨i, x⟩ := r
    obtain ⟨hx, haddr⟩ := mappingAt_some hat
    obtain ⟨space, hunmap, hedits⟩ := unmapRange_keep x.pages x.base m p.space
    exact .inr ⟨i, x, space, hx, haddr, hedits, fun w => unmapRange_leaf hunmap w,
      by simp only [shmUnmap, hat, hunmap]⟩

/-! ## Unmapping everything -/

/-- `shm_unmap` finds the first mapping with an address. -/
lemma mappingAt_eq (hx : maps i = some x)
    (hbefore : ∀ j < i, maps j = none) : mappingAt maps (x.base * pageSize) = some (i, x) := by
  obtain ⟨l1, l2, hsplit⟩ := append_of_mem (mem_finRange i)
  rw [mappingAt, findSome?_eq_some_iff]
  refine ⟨l1, i, l2, hsplit, by simp [hx], fun j hj => ?_⟩
  -- The slots in front of `i` are those below it.
  have hsorted := pairwise_lt_finRange shmMaxMappings
  rw [hsplit, pairwise_append] at hsorted
  rw [hbefore j (hsorted.2.2 j hj i (by simp))]
  rfl

/-- No mapping is left. -/
lemma unmapSlots_maps {l : List (Fin shmMaxMappings)} (hsorted : l.Pairwise (· < ·))
    (hrest : ∀ j, j ∉ l → p.maps j = none) (h : unmapSlots l m shms p = .ok (m', shms', p'))
    (j : Fin shmMaxMappings) :
    p'.maps j = none := by
  induction l generalizing m shms p with
  | nil =>
    cases h
    exact hrest j not_mem_nil
  | cons i l ih =>
    obtain ⟨hlt, hsorted⟩ := pairwise_cons.mp hsorted
    cases hx : p.maps i with
    | none =>
      simp only [unmapSlots, hx] at h
      refine ih hsorted (fun k hk => ?_) h
      by_cases hki : k = i
      · rw [hki, hx]
      · exact hrest k (by simp [hki, hk])
    | some x =>
      have hat : mappingAt p.maps (x.base * pageSize) = some (i, x) := by
        refine mappingAt_eq hx fun k hk => hrest k fun hmem => ?_
        rcases mem_cons.mp hmem with rfl | hmem
        · exact lt_irrefl _ hk
        · exact lt_asymm hk (hlt k hmem)
      obtain ⟨space, hunmap, -⟩ := unmapRange_keep x.pages x.base m p.space
      cases hunref : shmUnref m shms x.shm with
      | error e => simp [unmapSlots, hx, shmUnmap, hat, hunmap, hunref] at h
      | ok r =>
        simp only [unmapSlots, hx, shmUnmap, hat, hunmap, hunref] at h
        refine ih hsorted (fun k hk => ?_) h
        by_cases hki : k = i
        · simp [hki]
        · simp only [Function.update_of_ne hki]
          exact hrest k (by simp [hki, hk])

/-- After `shm_unmap_all` a process has no mappings. -/
lemma shmUnmapAll_maps (h : shmUnmapAll m shms p = .ok (m', shms', p')) (j : Fin shmMaxMappings) :
    p'.maps j = none :=
  unmapSlots_maps (pairwise_lt_finRange _) (fun k hk => absurd (mem_finRange k) hk) h j

end Wos.Mm
