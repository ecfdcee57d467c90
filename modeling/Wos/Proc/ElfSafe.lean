import Wos.Base.Bytes
import Wos.Proc.Elf

/-!
# What the loader touches

The bounds checks of `elf_load` are sums of fields of the image, and the sums wrap around. A program
header table that starts near the end of the address space is taken to end inside the image; a
segment that starts there is taken to end below the stack, and no page is mapped for it although it
is written.

For an image whose headers, as far as they are looked at, lie inside it and whose segments do not wrap
around, every byte read is one of the image and every byte written is in a page of the process. For
every other image there is a process for which this fails.

## Main definitions

* `Access.Mem`: the bytes of an access;
* `Loader.Safe`: what was read and written is where it may be;
* `Image.Honest`: the condition on the image.

## Main results

* `elfLoad_safe_iff`: the loader is safe in every process exactly when the image is honest.
-/

namespace Wos.Proc

open Mm List

/-! ## Accesses -/

/-- An access touches a byte. -/
def Access.Mem (a : Access) (x : ℕ) : Prop := ∃ k < a.len, x = (a.start + k) % wordSize

/-- An access stays below `size` and does not wrap around. -/
def Access.Within (a : Access) (size : ℕ) : Prop := a.start % wordSize + a.len ≤ size

instance (a : Access) (size : ℕ) : Decidable (a.Within size) :=
  inferInstanceAs (Decidable (_ ≤ _))

variable {size : ℕ}

variable {a : Access} {s' : Space} {lo hi x : ℕ}

/-- Every address is inside exactly if the range, from where it starts in 64 bits, is. -/
lemma Access.mem_lt_iff (hsize : size < wordSize) (hlen : 0 < a.len) :
    (∀ x, a.Mem x → x < size) ↔ a.Within size := by
  simp only [Access.Within, wordSize] at *
  constructor
  · intro h
    -- An access that wraps around touches the last byte of the address space.
    have hwrap : a.start % 2 ^ 64 + a.len ≤ 2 ^ 64 := by
      by_contra hover
      have hlast := h (2 ^ 64 - 1) ⟨2 ^ 64 - 1 - a.start % 2 ^ 64, by omega, by
        simp only [wordSize]
        omega⟩
      omega
    have hend := h (a.start % 2 ^ 64 + a.len - 1) ⟨a.len - 1, by omega, by
      simp only [wordSize]
      omega⟩
    omega
  · rintro h x ⟨k, hk, rfl⟩
    simp only [wordSize]
    omega

/-! ## The property and the condition -/

/-- The pages of a process are for the user and writable. -/
def OfProcess (s : Space) : Prop := ∀ v e, s.leaf v = some e → e.flags = userWrite

/-- A byte of the part of a space where a program may be loaded, in a page that is present and for the
user. -/
def Loadable (s : Space) (x : ℕ) : Prop :=
  userBase ≤ x ∧ x < userStackTop - userStackSize ∧
    ∃ e, s.leaf (x / pageSize) = some e ∧ e.flags.user = true

/-- Every byte read is one of the image, and every byte written may be written. -/
structure Loader.Safe (image : Image) (st : Loader) : Prop where
  reads : ∀ a ∈ st.reads, ∀ x, a.Mem x → x < image.size
  writes : ∀ a ∈ st.writes, ∀ x, a.Mem x → Loadable st.space x

/-- The fields that are read of a header are inside the image, and if its segment is loaded, neither
its place in memory nor its place in the image wraps around. -/
def Image.HeaderOk (image : Image) (o : ℕ) : Prop :=
  (∀ a ∈ (image.phdr o).fieldsRead o, a.Within image.size) ∧
    ((image.phdr o).verdict image.size = .load →
      (⟨o + 4, 4⟩ : Access).Within image.size ∧
        (image.phdr o).vaddr + (image.phdr o).memsz < wordSize ∧
        (image.phdr o).offset + (image.phdr o).filesz < wordSize)

instance (image : Image) (o : ℕ) : Decidable (image.HeaderOk o) :=
  inferInstanceAs (Decidable (_ ∧ (_ → _)))

/-- `n` headers from `ph[i]` on are as they should be, up to the first that is refused. -/
def Image.HeadersOk (image : Image) : ℕ → ℕ → Prop
  | 0, _ => True
  | n + 1, i =>
    image.HeaderOk (image.phdrOffset i) ∧
      ((image.phdr (image.phdrOffset i)).verdict image.size ≠ .reject →
        image.HeadersOk n (i + 1))

/-- The headers the loader looks at are as they should be. -/
def Image.Honest (image : Image) : Prop :=
  elfValidate image = none → image.HeadersOk image.ePhnum 0

/-! ## Honest images -/

variable {image : Image} {st st' : Loader} {i n : ℕ} {ph : Phdr}

lemma verdict_load (h : ph.verdict size = .load) :
    0 < ph.memsz ∧ userBase ≤ ph.vaddr ∧ ph.top ≤ userStackTop - userStackSize ∧
      ph.filesz ≤ ph.memsz ∧ (ph.offset + ph.filesz) % wordSize ≤ size := by
  unfold Phdr.verdict at h
  split_ifs at h with hskip hrange hfile
  · simp only [Phdr.OutOfRange, not_or, not_lt] at hrange hfile hskip
    exact ⟨Nat.pos_of_ne_zero hskip.2, hrange.1, hrange.2, hfile.1, hfile.2⟩

/-- Accesses to the fields of a header are never empty. -/
lemma len_pos_of_mem_fieldsRead (ph : Phdr) (o : ℕ) : ∀ a ∈ ph.fieldsRead o, 0 < a.len := by
  unfold Phdr.fieldsRead
  split_ifs <;> simp

variable {s : Space}

lemma Loadable.mono (h : Extends s s' lo hi) (hx : Loadable s x) :
    Loadable s' x := by
  obtain ⟨hlo, hhi, e, he, huser⟩ := hx
  exact ⟨hlo, hhi, e, h.old _ _ he, huser⟩

lemma OfProcess.extends (hs : OfProcess s) (h : Extends s s' lo hi) :
    OfProcess s' := by
  intro v e he
  cases hold : s.leaf v with
  | some e' =>
    rw [h.old v e' hold] at he
    cases he
    exact hs v e hold
  | none =>
    obtain ⟨-, -, f, hf⟩ := h.new v hold (by simp [he])
    rw [hf] at he
    cases he
    rfl

lemma OfProcess.loadable (hs : OfProcess s) (hlo : userBase ≤ x)
    (hhi : x < userStackTop - userStackSize) (hx : s.leaf (x / pageSize) ≠ none) :
    Loadable s x := by
  obtain ⟨e, he⟩ := Option.ne_none_iff_exists'.mp hx
  exact ⟨hlo, hhi, e, he, by rw [hs _ _ he]; rfl⟩

/-- What is kept while an honest image is loaded. -/
structure Loader.Ok (image : Image) (st : Loader) : Prop extends st.Safe image where
  ofProcess : OfProcess st.space

variable {o : ℕ}

/-- Reading the fields of a header that is inside the image is safe. -/
lemma Loader.Ok.readFields (hst : st.Ok image) (h : image.HeaderOk o) :
    (st.read ((image.phdr o).fieldsRead o)).Ok image where
  reads a ha := by
    rcases mem_append.mp ha with ha | ha
    · exact (Access.mem_lt_iff image.size_lt (len_pos_of_mem_fieldsRead _ _ a ha)).mpr (h.1 a ha)
    · exact hst.reads a ha
  writes := hst.writes
  ofProcess := hst.ofProcess

variable {v : ℕ}

/-- The segment of a header covers a page. A segment that wraps around covers none. -/
def Phdr.Covers (ph : Phdr) (v : ℕ) : Prop :=
  alignDown ph.vaddr / pageSize ≤ v ∧ v < alignUp ph.top / pageSize

instance (ph : Phdr) (v : ℕ) : Decidable (ph.Covers v) := inferInstanceAs (Decidable (_ ∧ _))

lemma Phdr.covers_iff (ph : Phdr) (v : ℕ) :
    ph.Covers v ↔ alignDown ph.vaddr / pageSize ≤ v ∧
      v < alignDown ph.vaddr / pageSize + (alignUp ph.top - alignDown ph.vaddr) / pageSize := by
  simp only [Phdr.Covers, alignDown, alignUp, pageSize]
  omega

/-- The pages of a segment that is to be loaded are where a program may be. -/
lemma segment_pages (h : ph.verdict size = .load) (hv : ph.Covers v) :
    userBase ≤ v * pageSize ∧ v * pageSize + pageSize ≤ userStackTop - userStackSize := by
  obtain ⟨-, hbase, htop, -, -⟩ := verdict_load h
  simp only [Phdr.Covers, Phdr.top, alignDown, alignUp, pageSize, wordSize, userBase, userStackTop,
    userStackSize] at *
  omega

/-- Its bytes are in these pages. -/
lemma segment_bytes {k : ℕ} (h : ph.verdict size = .load) (hwrap : ph.vaddr + ph.memsz < wordSize)
    (hk : k < ph.memsz) :
    (ph.vaddr + k) % wordSize = ph.vaddr + k ∧ userBase ≤ ph.vaddr + k ∧
      ph.vaddr + k < userStackTop - userStackSize ∧ ph.Covers ((ph.vaddr + k) / pageSize) := by
  obtain ⟨-, hbase, htop, -, -⟩ := verdict_load h
  simp only [Phdr.Covers, Phdr.top, alignDown, alignUp, pageSize, wordSize, userBase, userStackTop,
    userStackSize] at *
  omega

/-- Copying a segment that does not wrap around and whose pages are there is safe. -/
lemma Loader.Ok.copySegment (hst : st.Ok image) (h : ph.verdict image.size = .load)
    (hflags : (⟨o + 4, 4⟩ : Access).Within image.size) (hwrap : ph.vaddr + ph.memsz < wordSize)
    (hfile : ph.offset + ph.filesz < wordSize)
    (hpages : ∀ v, ph.Covers v → st.space.leaf v ≠ none) : (st.copySegment o ph).Ok image where
  reads a ha := by
    rcases mem_cons.mp ha with rfl | ha
    · exact (Access.mem_lt_iff image.size_lt (show 0 < 4 by decide)).mpr hflags
    rcases mem_cons.mp ha with rfl | ha
    · rintro x ⟨k, hk, rfl⟩
      have hoff := (verdict_load h).2.2.2.2
      rw [Nat.mod_eq_of_lt hfile] at hoff
      rw [Nat.mod_eq_of_lt (by simp only at hk ⊢; omega)]
      simp only at hk ⊢
      omega
    · exact hst.reads a ha
  writes a ha := by
    -- Both parts of the segment are bytes `vaddr + k` with `k < memsz`.
    have hbyte : ∀ k < ph.memsz, Loadable st.space ((ph.vaddr + k) % wordSize) := by
      intro k hk
      obtain ⟨hmod, hlo, hhi, hpage⟩ := segment_bytes h hwrap hk
      rw [hmod]
      exact hst.ofProcess.loadable hlo hhi (hpages _ hpage)
    have hle := (verdict_load h).2.2.2.1
    rcases mem_append.mp ha with ha | ha
    · split_ifs at ha with hbss
      · obtain rfl := mem_singleton.mp ha
        rintro x ⟨k, hk, rfl⟩
        simp only at hk ⊢
        rw [Nat.add_assoc]
        exact hbyte _ (by omega)
      · cases ha
    rcases mem_cons.mp ha with rfl | ha
    · rintro x ⟨k, hk, rfl⟩
      exact hbyte k (hk.trans_le hle)
    · exact hst.writes a ha
  ofProcess := hst.ofProcess

/-- A segment that passes the checks is read inside the file. -/
lemma Loader.Ok.loadSegment (hst : st.Ok image) (h : image.HeaderOk o)
    (hverdict : (image.phdr o).verdict image.size = .load) :
    ∃ r st', st.loadSegment o (image.phdr o) = .ok (r, st') ∧ st'.Ok image := by
  obtain ⟨hflags, hwrap, hfile⟩ := h.2 hverdict
  generalize image.phdr o = ph at *
  obtain ⟨mapped, pages, pmm, space, hmap, hsteps, hpages, hall⟩ :=
    mapRange_spec (s := st.space) (n := (alignUp ph.top - alignDown ph.vaddr) / pageSize)
      (v := alignDown ph.vaddr / pageSize) st.pmm (.inl rfl)
  have hext := MapSteps.extends hsteps
  have hproc : OfProcess space := hst.ofProcess.extends hext
  have hmapped : ({ st with
      pmm, space, writes := pages.map (fun v => ⟨v * pageSize, pageSize⟩) ++ st.writes } :
      Loader).Ok image := by
    refine ⟨⟨hst.reads, fun a ha x hx => ?_⟩, hproc⟩
    rcases mem_append.mp ha with ha | ha
    · -- The pages that were cleared are present and where a program may be.
      obtain ⟨v, hv, rfl⟩ := mem_map.mp ha
      obtain ⟨hlo, hhi, hne⟩ := hpages v hv
      obtain ⟨hlo', hhi'⟩ := segment_pages hverdict ((ph.covers_iff v).mpr ⟨hlo, hhi⟩)
      obtain ⟨k, hk, rfl⟩ := hx
      change k < pageSize at hk
      have hpage : (v * pageSize + k) / pageSize = v := by
        simp only [pageSize] at hk ⊢
        omega
      have hmod : (v * pageSize + k) % wordSize = v * pageSize + k := by
        simp only [pageSize, wordSize, userStackTop, userStackSize] at hk hhi' ⊢
        omega
      rw [hmod]
      exact hproc.loadable (by omega) (by omega) (hpage.symm ▸ hne)
    · exact (hst.writes a ha x hx).mono hext
  unfold Loader.loadSegment
  simp only [hmap]
  cases mapped with
  | false => exact ⟨_, _, rfl, hmapped⟩
  | true =>
    exact ⟨_, _, rfl, hmapped.copySegment hverdict hflags hwrap hfile fun v hv =>
      and_imp.mpr (hall rfl v) ((ph.covers_iff v).mp hv)⟩

/-- One header of an honest image. -/
lemma elfSegment_ok (hst : st.Ok image) (h : image.HeaderOk (image.phdrOffset i)) :
    ∃ r st', elfSegment image i st = .ok (r, st') ∧ st'.Ok image ∧
      (r = none → (image.phdr (image.phdrOffset i)).verdict image.size ≠ .reject) := by
  have hread := hst.readFields h
  cases hverdict : (image.phdr (image.phdrOffset i)).verdict image.size with
  | skip => exact ⟨none, _, by simp only [elfSegment, hverdict], hread, by simp⟩
  | reject => exact ⟨some .ENOEXEC, _, by simp only [elfSegment, hverdict], hread, by simp⟩
  | load =>
    obtain ⟨r, st', hload, hst'⟩ := hread.loadSegment h hverdict
    exact ⟨r, st', by simp only [elfSegment, hverdict, hload], hst', by simp⟩

lemma elfLoop_ok (hst : st.Ok image) (h : image.HeadersOk n i) :
    ∃ r st', elfLoop image n i st = .ok (r, st') ∧ st'.Ok image := by
  induction n generalizing i st with
  | zero => exact ⟨none, st, rfl, hst⟩
  | succ n ih =>
    obtain ⟨r, st1, hsegment, hst1, hgo⟩ := elfSegment_ok hst h.1
    unfold elfLoop
    simp only [hsegment]
    cases r with
    | some e => exact ⟨some e, st1, rfl, hst1⟩
    | none => exact ih hst1 (h.2 (hgo rfl))

/-- What the loader starts from. -/
lemma Loader.start_ok (image : Image) (m : Pmm) (hs : OfProcess s) :
    (Loader.start image m s).Ok image := by
  refine ⟨⟨fun a ha => ?_, fun a ha => absurd ha not_mem_nil⟩, hs⟩
  unfold Loader.start at ha
  split_ifs at ha with hsize
  · cases ha
  · obtain rfl := mem_singleton.mp ha
    refine (Access.mem_lt_iff image.size_lt (show 0 < 64 by decide)).mpr ?_
    simpa [Access.Within] using hsize

/-- An honest image is loaded safely into every process. -/
lemma elfLoad_ok (h : image.Honest) (m : Pmm) (hs : OfProcess s) :
    ∃ r st, elfLoad image m s = .ok (r, st) ∧ st.Safe image := by
  have hstart := Loader.start_ok image m hs
  cases hvalidate : elfValidate image with
  | some e => exact ⟨.error e, _, by simp only [elfLoad, hvalidate], hstart.toSafe⟩
  | none =>
    obtain ⟨r, st, hloop, hst⟩ := elfLoop_ok hstart (h hvalidate)
    cases r with
    | some e => exact ⟨.error e, st, by simp only [elfLoad, hvalidate, hloop], hst.toSafe⟩
    | none =>
      exact ⟨elfFinish image st.highest, st, by simp only [elfLoad, hvalidate, hloop], hst.toSafe⟩

/-! ## Other images -/

/-- A space in which every user page is present, each on a frame of its own. -/
def fullSpace : Space where
  pml4 := 1
  pdpt := 2
  entry i := if i = 1 ∨ i = 2 then
    some ⟨2 + i, fun j => some ⟨2 ^ 12 + 512 * i + j, fun k =>
      some ⟨2 ^ 21 + 512 * (512 * i + j) + k, userWrite⟩⟩⟩ else none
  userFrames := 2 * 512 * 512
  tableFrames := 2 + 2 + 2 * 512

lemma ofProcess_fullSpace : OfProcess fullSpace := by
  intro v e he
  simp only [Space.leaf, Space.table, fullSpace] at he
  split_ifs at he
  · cases he
    rfl
  · cases he

lemma leaf_fullSpace (h : userBase ≤ v * pageSize ∧
    v * pageSize + pageSize ≤ userStackTop - userStackSize) : fullSpace.leaf v ≠ none := by
  have hi : v / 512 / 512 = 1 ∨ v / 512 / 512 = 2 := by
    simp only [userBase, userStackTop, userStackSize, pageSize] at h
    omega
  simp [Space.leaf, Space.table, fullSpace, hi]

/-- Where every page is present there is nothing to map. -/
lemma mapRange_present {n : ℕ} (m : Pmm) (h : ∀ w, v ≤ w → w < v + n → s.leaf w ≠ none) :
    mapRange true n v m s = .ok (true, [], m, s) := by
  induction n generalizing v with
  | zero => rfl
  | succ n ih =>
    rw [mapRange, if_pos ⟨rfl, Option.isSome_iff_ne_none.mpr (h v le_rfl (by omega))⟩]
    exact ih fun w hw hw' => h w (by omega) (by omega)

/-- Something outside the image was read, or something above the part for programs was written. -/
def Loader.Bad (image : Image) (st : Loader) : Prop :=
  (∃ a ∈ st.reads, ∃ x, a.Mem x ∧ image.size ≤ x) ∨
    ∃ a ∈ st.writes, ∃ x, a.Mem x ∧ userStackTop - userStackSize ≤ x

lemma Loader.Bad.not_safe (h : st.Bad image) : ¬ st.Safe image := by
  intro hsafe
  rcases h with ⟨a, ha, x, hx, hle⟩ | ⟨a, ha, x, hx, hle⟩
  · exact absurd (hsafe.reads a ha x hx) (by omega)
  · exact absurd (hsafe.writes a ha x hx).2.1 (by omega)

lemma Loader.Bad.mono (h : st.Bad image) (hreads : st.reads ⊆ st'.reads)
    (hwrites : st.writes ⊆ st'.writes) : st'.Bad image :=
  h.imp (fun ⟨a, ha, hx⟩ => ⟨a, hreads ha, hx⟩) fun ⟨a, ha, hx⟩ => ⟨a, hwrites ha, hx⟩

/-- An access that is not within the image touches something else. -/
lemma exists_mem_of_not_within (hlen : 0 < a.len) (h : ¬ a.Within image.size) :
    ∃ x, a.Mem x ∧ image.size ≤ x := by
  rw [← Access.mem_lt_iff image.size_lt hlen] at h
  simpa only [not_forall, exists_prop, not_lt] using h

lemma Image.le_lt (image : Image) (off n : ℕ) : image.le off n < 256 ^ n := by
  induction n generalizing off with
  | zero => simp [Image.le]
  | succ n ih =>
    have hbyte := (image.byte (off % wordSize)).toNat_lt
    have hrest := ih (off + 1)
    rw [Image.le, Nat.pow_succ]
    omega

/-- A segment that wraps around is written at the last byte of the address space, or read there. -/
lemma bad_copySegment (hverdict : ph.verdict image.size = .load) (hvaddr : ph.vaddr < wordSize)
    (hoffset : ph.offset < wordSize)
    (h : ¬ ((⟨o + 4, 4⟩ : Access).Within image.size ∧ ph.vaddr + ph.memsz < wordSize ∧
      ph.offset + ph.filesz < wordSize)) : (st.copySegment o ph).Bad image := by
  have hsize := image.size_lt
  have hle := (verdict_load hverdict).2.2.2.1
  by_cases hflags : (⟨o + 4, 4⟩ : Access).Within image.size
  · by_cases hwrap : ph.vaddr + ph.memsz < wordSize
    · -- The last byte of the file part is read at the last byte of the address space.
      have hfile : ¬ ph.offset + ph.filesz < wordSize := fun hfile => h ⟨hflags, hwrap, hfile⟩
      refine .inl ⟨⟨ph.offset, ph.filesz⟩, by simp [Loader.copySegment], wordSize - 1,
        ⟨wordSize - 1 - ph.offset, ?_, ?_⟩, by omega⟩
      · simp only
        omega
      · simp only [wordSize] at *
        omega
    · -- So is the last byte of the segment written, by `memcpy` or by `memset`.
      have hlimit : userStackTop - userStackSize ≤ wordSize - 1 := by decide
      by_cases hpart : wordSize - 1 - ph.vaddr < ph.filesz
      · refine .inr ⟨⟨ph.vaddr, ph.filesz⟩, by simp [Loader.copySegment], wordSize - 1,
          ⟨wordSize - 1 - ph.vaddr, hpart, ?_⟩, hlimit⟩
        simp only [wordSize] at *
        omega
      have hbss : ph.filesz < ph.memsz := by omega
      refine .inr ⟨⟨ph.vaddr + ph.filesz, ph.memsz - ph.filesz⟩,
        by simp [Loader.copySegment, hbss], wordSize - 1,
        ⟨wordSize - 1 - ph.vaddr - ph.filesz, ?_, ?_⟩, hlimit⟩
      · simp only
        omega
      · simp only [wordSize] at *
        omega
  · obtain ⟨x, hx, hle'⟩ := exists_mem_of_not_within (show 0 < 4 by decide) hflags
    exact .inl ⟨_, by simp [Loader.copySegment], x, hx, hle'⟩

/-- One header, in a space in which every page is present. -/
lemma elfSegment_full (hspace : st.space = fullSpace) :
    ∃ r st', elfSegment image i st = .ok (r, st') ∧ st'.space = fullSpace ∧
      st.reads ⊆ st'.reads ∧ st.writes ⊆ st'.writes ∧
      (r = none ↔ (image.phdr (image.phdrOffset i)).verdict image.size ≠ .reject) ∧
      (¬ image.HeaderOk (image.phdrOffset i) → st'.Bad image) := by
  generalize ho : image.phdrOffset i = o
  -- A field that is outside the image is read whatever becomes of the header.
  have hfields : ∀ {st' : Loader}, (image.phdr o).fieldsRead o ⊆ st'.reads →
      ¬ (∀ a ∈ (image.phdr o).fieldsRead o, a.Within image.size) → st'.Bad image := by
    intro st' hsub hnot
    simp only [not_forall, exists_prop] at hnot
    obtain ⟨a, ha, hout⟩ := hnot
    obtain ⟨x, hx, hle⟩ := exists_mem_of_not_within (len_pos_of_mem_fieldsRead _ _ a ha) hout
    exact .inl ⟨a, hsub ha, x, hx, hle⟩
  let st1 := st.read ((image.phdr o).fieldsRead o)
  have hsub : (image.phdr o).fieldsRead o ⊆ st1.reads := subset_append_left _ _
  have hold : st.reads ⊆ st1.reads := subset_append_right _ _
  cases hverdict : (image.phdr o).verdict image.size with
  | skip | reject =>
    refine ⟨_, st1, by simp only [elfSegment, ho, hverdict]; rfl, hspace, hold, fun _ => id, by simp,
      fun hnot => hfields hsub fun hall => hnot ⟨hall, ?_⟩⟩
    simp [hverdict]
  | load =>
    have hmap := mapRange_present st1.pmm fun w hw hw' =>
      leaf_fullSpace (segment_pages hverdict ((Phdr.covers_iff _ w).mpr ⟨hw, hw'⟩))
    have hcopy : ∀ {a}, a ∈ st1.reads → a ∈ (st1.copySegment o (image.phdr o)).reads :=
      fun ha => mem_cons_of_mem _ (mem_cons_of_mem _ ha)
    refine ⟨none, st1.copySegment o (image.phdr o), ?_, hspace, fun _ ha => hcopy (hold ha), ?_,
      by simp, fun hnot => ?_⟩
    · rw [← hspace] at hmap
      simp only [elfSegment, ho, hverdict, Loader.loadSegment]
      rw [show (st.read ((image.phdr o).fieldsRead o)).space = st.space from rfl, hmap]
      rfl
    · exact fun _ ha => mem_append_right _ (mem_cons_of_mem _ ha)
    · by_cases hall : ∀ a ∈ (image.phdr o).fieldsRead o, a.Within image.size
      · refine bad_copySegment hverdict ?_ ?_ fun hok => hnot ⟨hall, fun _ => hok⟩
        · exact image.le_lt (o + 16) 8
        · exact image.le_lt (o + 8) 8
      · exact hfields (fun _ ha => hcopy (hsub ha)) hall

/-- A bad header ends in a bad access. -/
lemma elfLoop_bad (hspace : st.space = fullSpace) (h : st.Bad image ∨ ¬ image.HeadersOk n i) :
    ∃ r st', elfLoop image n i st = .ok (r, st') ∧ st'.Bad image := by
  induction n generalizing i st with
  | zero => exact ⟨none, st, rfl, h.resolve_right (not_not.mpr trivial)⟩
  | succ n ih =>
    obtain ⟨r, st1, hsegment, hspace1, hreads, hwrites, hgo, hbad⟩ :=
      elfSegment_full (i := i) hspace
    have h1 : st1.Bad image ∨ r = none ∧ ¬ image.HeadersOk n (i + 1) := by
      rcases h with h | h
      · exact .inl (h.mono hreads hwrites)
      by_cases hheader : image.HeaderOk (image.phdrOffset i)
      · simp only [Image.HeadersOk, hheader, true_and, Classical.not_imp] at h
        exact .inr ⟨hgo.mpr h.1, h.2⟩
      · exact .inl (hbad hheader)
    unfold elfLoop
    simp only [hsegment]
    cases r with
    | some e => exact ⟨some e, st1, rfl, h1.resolve_right (by simp)⟩
    | none => exact ih hspace1 (h1.imp_right And.right)

/-- An image that is not honest is loaded badly into a process that has all its pages already. -/
lemma elfLoad_bad (h : ¬ image.Honest) (m : Pmm) :
    ∃ r st, elfLoad image m fullSpace = .ok (r, st) ∧ st.Bad image := by
  simp only [Image.Honest, Classical.not_imp] at h
  obtain ⟨hvalidate, hheaders⟩ := h
  have hstart : (Loader.start image m fullSpace).space = fullSpace := rfl
  obtain ⟨r, st, hloop, hbad⟩ := elfLoop_bad hstart (.inr hheaders)
  cases r with
  | some e => exact ⟨.error e, st, by simp only [elfLoad, hvalidate, hloop], hbad⟩
  | none =>
    exact ⟨elfFinish image st.highest, st, by simp only [elfLoad, hvalidate, hloop], hbad⟩

/-- The loader returns, and touches only what it may, in every process and with any memory, exactly
when the image is honest. -/
theorem elfLoad_safe_iff (image : Image) :
    (∀ (m : Pmm) (s : Space), OfProcess s →
      ∃ r st, elfLoad image m s = .ok (r, st) ∧ st.Safe image) ↔ image.Honest := by
  refine ⟨fun hsafe => ?_, fun h m s hs => elfLoad_ok h m hs⟩
  by_contra hnot
  let m : Pmm := ⟨fun _ => true, 0, 0, 0, 0⟩
  obtain ⟨r, st, hload, hst⟩ := hsafe m fullSpace ofProcess_fullSpace
  obtain ⟨r', st', hload', hbad⟩ := elfLoad_bad hnot m
  rw [hload] at hload'
  cases hload'
  exact hbad.not_safe hst

/-! ## A small program -/

/-- `n` bytes of a number, little-endian. -/
def leBytes (n v : ℕ) : List UInt8 := (List.range n).map (leByte v)

/-- A program with one segment and no contents in the file, entered at `USER_BASE`. -/
def programBytes (vaddr memsz : ℕ) : List UInt8 :=
  [0x7F, 0x45, 0x4C, 0x46, 2, 1, 1, 0] ++ leBytes 8 0 ++ leBytes 2 2 ++ leBytes 2 62 ++
    leBytes 4 1 ++ leBytes 8 userBase ++ leBytes 8 64 ++ leBytes 8 0 ++ leBytes 4 0 ++
    leBytes 2 64 ++ leBytes 2 56 ++ leBytes 2 1 ++ leBytes 6 0 ++
    leBytes 4 1 ++ leBytes 4 5 ++ leBytes 8 0 ++ leBytes 8 vaddr ++ leBytes 8 vaddr ++
    leBytes 8 0 ++ leBytes 8 memsz ++ leBytes 8 4096

/-- Its image. -/
def program (vaddr memsz : ℕ) : Image where
  size := 120
  size_lt := by decide
  byte o := (programBytes vaddr memsz).getD o 0

/-- A process without pages, whose tables are in two of them. -/
def freshSpace : Space := ⟨2, 3, fun _ => none, 0, 2⟩

example : (elfLoad (program userBase 4096) smallMachine freshSpace).toOption.map
    (fun r => (r.1.toOption.map Loaded.heapStart, r.2.writes)) =
      some (some 0x40001000, [⟨userBase, 4096⟩, ⟨userBase, 0⟩, ⟨userBase, 4096⟩]) := by
  decide

/-- A segment on the last page of the address space passes the checks, and is written without a page
being mapped for it. -/
theorem not_loaded_safely_of_wrap : ¬ ∀ (image : Image) (m : Pmm) (s : Space), OfProcess s →
    ∃ r st, elfLoad image m s = .ok (r, st) ∧ st.Safe image := by
  intro hall
  have hproc : OfProcess freshSpace := fun v e he => by
    simp [Space.leaf, Space.table, freshSpace] at he
  obtain ⟨r, st, hload, hsafe⟩ :=
    hall (program (wordSize - 4096) 4096) smallMachine freshSpace hproc
  have hwrites : (elfLoad (program (wordSize - 4096) 4096) smallMachine freshSpace).toOption.map
      (fun r => r.2.writes) = some [⟨wordSize - 4096, 4096⟩, ⟨wordSize - 4096, 0⟩] := by
    decide
  rw [hload] at hwrites
  have hmem : (⟨wordSize - 4096, 4096⟩ : Access) ∈ st.writes := by
    have heq : st.writes = _ := Option.some.inj hwrites
    rw [heq]
    exact mem_cons_self
  have hbyte := hsafe.writes _ hmem (wordSize - 1) ⟨4095, by decide, by decide⟩
  exact absurd hbyte.2.1 (by decide)

end Wos.Proc
