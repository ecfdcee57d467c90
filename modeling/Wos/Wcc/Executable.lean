import Wos.Proc.ElfSafe
import Wos.Wcc.Link

/-!
# From the linker to memory

`link_executable` writes an executable with two segments, one with `.text` and `.rodata` and one
with `.data` and `.bss`, and `elf_load` puts them into memory. The loader of `Wos.Proc.Elf` keeps a
record of what it reads and writes; here the same headers and the same checks move the bytes.

The buffers that the linker fills are one image, by address.

## Main definitions

* `Memory`, `Memory.load`, `memory`: what `elf_load` leaves in memory;
* `Link.copied`, `Link.header`, `Link.fileByte`, `linkFile`: the file that is written;
* `relocated`: the contents of one section with its own relocations;
* `Composed`: what linker and loader come to together.

## Main results

* `copied_section`, `relocated_image`: the image has the relocated bytes of every section;
* `le_field`: a field of the header is read back;
* `linked_program_loads`: every program that is linked and then loaded is composed.
-/

namespace Wos.Wcc.Linker

open List
open Option hiding map_map

open Wos.Proc (Image Phdr Loaded Loader elfLoad elfFinish leBytes)
open Wos.Mm (pageSize wordSize Pmm Space)

/-! ## Memory -/

/-- The pages that are mapped, and the bytes. -/
structure Memory where
  mapped : ℕ → Bool
  byte : Buf

namespace Memory

/-- A page is mapped and zeroed, unless it is there already. -/
def mapPage (m : Memory) (v : ℕ) : Memory :=
  if m.mapped v then m
  else ⟨fun u => u == v || m.mapped u, fun x => if x / pageSize = v then 0 else m.byte x⟩

/-- A segment that passed the checks: its pages, what it has in the file, and zeroes. -/
def load (image : Image) (m : Memory) (ph : Phdr) : Memory :=
  let start := Mm.alignDown ph.vaddr
  let stop := Mm.alignUp ph.top
  let m := (List.range' (start / pageSize) ((stop - start) / pageSize)).foldl mapPage m
  { m with
    byte := fun x =>
      if ph.vaddr ≤ x ∧ x < ph.vaddr + ph.filesz then
        image.byte ((ph.offset + (x - ph.vaddr)) % wordSize)
      else if ph.vaddr ≤ x ∧ x < ph.vaddr + ph.memsz then 0
      else m.byte x }

/-- The loop of `elf_load`, up to a header that is refused. -/
def loop (image : Image) : ℕ → ℕ → Memory → Memory
  | 0, _, m => m
  | n + 1, i, m =>
    let ph := image.phdr (image.phdrOffset i)
    match ph.verdict image.size with
    | .skip => loop image n (i + 1) m
    | .reject => m
    | .load => loop image n (i + 1) (m.load image ph)

end Memory

/-- The bytes in memory after `elf_load`. -/
def memory (image : Image) (old : Memory) : Buf := (Memory.loop image image.ePhnum 0 old).byte

/-! ## The file -/

/-- The contents of the sections, by object and section. -/
abbrev Contents := ℕ → ℕ → Buf

/-- What the layout puts into the buffers at one spot; there is nothing to copy for `.bss`. -/
def copySpot (objs : List Object) (contents : Contents) (img : Buf) (spot : Spot) : Buf :=
  match spot.key with
  | .sec k i =>
    if (section? objs k i).bind outputFor = some .bss then img
    else img.copy spot.address (contents k i) spot.size
  | .common _ => img

namespace Link

variable (l : Link)

/-- The buffers after the layout, padded with zeroes. -/
def copied (contents : Contents) : Buf := l.spots.foldl (copySpot l.objs contents) Buf.zero

def textStart : ℕ := alignUp 0x40000000 0x1000
def textEnd : ℕ := after textStart (itemsOf l.objs .text)
def rodataStart : ℕ := alignUp l.textEnd 0x1000
def rodataEnd : ℕ := after l.rodataStart (itemsOf l.objs .rodata)
def dataStart : ℕ := alignUp l.rodataEnd 0x1000
def dataEnd : ℕ := after l.dataStart (itemsOf l.objs .data)
def bssStart : ℕ := alignUp l.dataEnd 0x1000
def bssEnd : ℕ := after l.bssStart (itemsOf l.objs .bss ++ commonItems l.globals)

/-- Where `.text` lies in the file: the headers take 176 bytes. -/
def textOffset : ℕ := alignUp 176 0x1000

def dataOffset : ℕ := alignUp (textOffset + (l.rodataEnd - textStart)) 0x1000

/-- The fields of the ELF header and the two program headers, with their widths. -/
def header (entry : ℕ) : List (ℕ × ℕ) :=
  [(1, 0x7F), (1, 0x45), (1, 0x4C), (1, 0x46), (1, 2), (1, 1), (1, 1), (9, 0),
    (2, 2), (2, 62), (4, 1), (8, entry), (8, 64), (8, 0), (4, 0), (2, 64), (2, 56), (2, 2), (2, 0),
    (2, 0), (2, 0),
    -- PT_LOAD, read and execute
    (4, 1), (4, 5), (8, textOffset), (8, textStart), (8, textStart),
    (8, l.rodataEnd - textStart), (8, l.rodataEnd - textStart), (8, 0x1000),
    -- PT_LOAD, read and write
    (4, 1), (4, 6), (8, l.dataOffset), (8, l.dataStart), (8, l.dataStart),
    (8, l.dataEnd - l.dataStart), (8, l.bssEnd - l.dataStart), (8, 0x1000)]

/-- The file: the headers, and the buffers at their offsets with zeroes between them. -/
def fileByte (img : Buf) (entry q : ℕ) : UInt8 :=
  if q < 176 then ((l.header entry).flatMap fun f => leBytes f.1 f.2).getD q 0
  else if textOffset ≤ q ∧ q < textOffset + (l.textEnd - textStart) then
    img (textStart + (q - textOffset))
  else if textOffset + (l.rodataStart - textStart) ≤ q ∧
      q < textOffset + (l.rodataEnd - textStart) then
    img (textStart + (q - textOffset))
  else if l.dataOffset ≤ q ∧ q < l.dataOffset + (l.dataEnd - l.dataStart) then
    img (l.dataStart + (q - l.dataOffset))
  else 0

/-- The address of `_start`. -/
def entry : Option ℕ := (findGlobal l.globals "_start").bind l.globalAddress

lemma size_mod_lt (n : ℕ) : n % wordSize < wordSize := Nat.mod_lt n (Nat.two_pow_pos 64)

/-- The file as the kernel reads it. -/
def file (img : Buf) (entry : ℕ) : Image where
  size := (l.dataOffset + (l.dataEnd - l.dataStart)) % wordSize
  size_lt := size_mod_lt _
  byte := l.fileByte img entry

end Link

/-- `link_executable`: the file, if the link succeeds. -/
def linkFile (inputs pulled : List Object) (contents : Contents) : Option Image :=
  let l := linkOf inputs pulled
  (linkExecutable inputs pulled (l.copied contents)).bind fun img => l.entry.map (l.file img)

/-! ## What they come to together -/

/-- One relocation, on the contents of the section `i` of object `k` alone. -/
def relocateOne (l : Link) (k i : ℕ) (b : Buf) (e : ℕ × ℕ × Rela) : Buf :=
  if e.1 = k ∧ e.2.1 = i then
    match l.find (.sec k i), symbol? l.objs k e.2.2.symbol with
    | some base, some sym =>
      match l.lookup k sym with
      | .address v =>
        writeU b e.2.2.offset (e.2.2.type.value v e.2.2.addend (base + e.2.2.offset)) e.2.2.type.width
      | _ => b
    | _, _ => b
  else b

/-- The relocated bytes of a section. -/
def relocated (l : Link) (contents : Contents) (k i : ℕ) : Buf :=
  (relocations l.objs).foldl (relocateOne l k i) (contents k i)

/-- Memory holds the relocated bytes of every section that is placed, and zeroes for those without
contents and for common symbols; the places are apart and aligned; the two segments share no page;
and the program starts at `_start`. -/
structure Composed (l : Link) (contents : Contents) (mem : Buf) (entry : ℕ) : Prop where
  /-- Every section has its relocated bytes, or zeroes. -/
  sections : ∀ k i s a, section? l.objs k i = some s → l.find (.sec k i) = some a → ∀ j < s.size,
    mem (a + j) = if s.type = .nobits then 0 else relocated l contents k i j
  /-- Common symbols are zero. -/
  commons : ∀ g ∈ l.globals, g.owner = none → ∀ a, l.globalAddress g = some a →
    ∀ j < g.commonSize, mem (a + j) = 0
  /-- No two places overlap. -/
  apart : l.spots.Pairwise fun x y => x.address + x.size ≤ y.address
  /-- Sections are aligned. -/
  aligned : ∀ k i s a, section? l.objs k i = some s → l.find (.sec k i) = some a →
    max s.align 1 ∣ a
  /-- Common symbols are aligned. -/
  commonAligned : ∀ g ∈ l.globals, g.owner = none → ∀ a, l.globalAddress g = some a →
    max g.commonAlign 1 ∣ a
  /-- Read-only and writable parts share no page. -/
  pages : ∀ x < l.rodataEnd, ∀ y ≥ l.dataStart, x / 0x1000 ≠ y / 0x1000
  /-- The entry point is the address of `_start`. -/
  starts : ∃ a, l.entry = some a ∧ entry = a % wordSize

/-! ## The parts of the layout -/

lemma dvd_alignUp (value alignment : ℕ) : max alignment 1 ∣ alignUp value alignment :=
  Dvd.intro_left _ rfl

lemma layout_append (here : ℕ) (items items' : List Item) :
    layout here (items ++ items') = layout here items ++ layout (after here items) items' := by
  induction items generalizing here with
  | nil => rfl
  | cons item items ih =>
    cases item with
    | page => exact ih _
    | place key align size => exact congrArg (cons _) (ih _)

lemma after_append (here : ℕ) (items items' : List Item) :
    after here (items ++ items') = after (after here items) items' := by
  induction items generalizing here with
  | nil => rfl
  | cons item items ih =>
    cases item with
    | page => exact ih _
    | place key align size => exact ih _

lemma le_after (here : ℕ) (items : List Item) : here ≤ after here items := by
  induction items generalizing here with
  | nil => exact le_rfl
  | cons item items ih =>
    cases item with
    | page => exact (le_alignUp _ _).trans (ih _)
    | place key align size =>
      have hhere := le_alignUp here align
      have hrest := ih (alignUp here align + size)
      rw [after]
      omega

/-- A spot belongs to an item, is aligned as it asks for, and lies within the layout. -/
lemma spot_spec {here : ℕ} {items : List Item} {s : Spot} (h : s ∈ layout here items) :
    here ≤ s.address ∧ s.address + s.size ≤ after here items ∧
      ∃ align, Item.place s.key align s.size ∈ items ∧ max align 1 ∣ s.address := by
  induction items generalizing here with
  | nil => cases h
  | cons item items ih =>
    cases item with
    | page =>
      obtain ⟨hlow, hhigh, align, hitem, hdvd⟩ := ih h
      exact ⟨(le_alignUp _ _).trans hlow, hhigh, align, mem_cons_of_mem _ hitem, hdvd⟩
    | place key align size =>
      have hhere := le_alignUp here align
      rcases mem_cons.mp h with rfl | h
      · exact ⟨hhere, le_after _ _, align, mem_cons_self, dvd_alignUp _ _⟩
      · obtain ⟨hlow, hhigh, align', hitem, hdvd⟩ := ih h
        exact ⟨by omega, hhigh, align', mem_cons_of_mem _ hitem, hdvd⟩

namespace Link

variable (l : Link)

/-- The start of a part of the output. -/
def start : Out → ℕ
  | .text => textStart
  | .rodata => l.rodataStart
  | .data => l.dataStart
  | .bss => l.bssStart

/-- Its end. -/
def stop : Out → ℕ
  | .text => l.textEnd
  | .rodata => l.rodataEnd
  | .data => l.dataEnd
  | .bss => l.bssEnd

/-- The parts follow each other. -/
lemma parts_le : textStart ≤ l.textEnd ∧ l.textEnd ≤ l.rodataStart ∧ l.rodataStart ≤ l.rodataEnd ∧
    l.rodataEnd ≤ l.dataStart ∧ l.dataStart ≤ l.dataEnd ∧ l.dataEnd ≤ l.bssStart ∧
    l.bssStart ≤ l.bssEnd :=
  ⟨le_after _ _, le_alignUp _ _, le_after _ _, le_alignUp _ _, le_after _ _, le_alignUp _ _,
    le_after _ _⟩

end Link

variable {i : ℕ}

section Parts

variable {inputs pulled : List Object}

/-- The layout, part by part. -/
lemma mem_spots {s : Spot} : s ∈ (linkOf inputs pulled).spots ↔
    s ∈ layout Link.textStart (itemsOf (inputs ++ pulled) .text) ∨
    s ∈ layout (linkOf inputs pulled).rodataStart (itemsOf (inputs ++ pulled) .rodata) ∨
    s ∈ layout (linkOf inputs pulled).dataStart (itemsOf (inputs ++ pulled) .data) ∨
    s ∈ layout (linkOf inputs pulled).bssStart
      (itemsOf (inputs ++ pulled) .bss ++ commonItems (collect inputs pulled)) := by
  have hitems : items (inputs ++ pulled) (collect inputs pulled) =
      (.page :: itemsOf (inputs ++ pulled) .text) ++ ((.page :: itemsOf (inputs ++ pulled) .rodata) ++
        ((.page :: itemsOf (inputs ++ pulled) .data) ++
          (.page :: (itemsOf (inputs ++ pulled) .bss ++ commonItems (collect inputs pulled))))) := by
    simp [items]
  change s ∈ layout 0x40000000 (items (inputs ++ pulled) (collect inputs pulled)) ↔ _
  rw [hitems, layout_append, layout_append, layout_append, mem_append, mem_append, mem_append]
  rfl

/-- A section that is placed lies in its part of the output, aligned. -/
lemma section_range {k a : ℕ} {s : Section} (hs : section? (inputs ++ pulled) k i = some s)
    (h : (linkOf inputs pulled).find (.sec k i) = some a) :
    ∃ out, outputFor s = some out ∧ (linkOf inputs pulled).start out ≤ a ∧
      a + s.size ≤ (linkOf inputs pulled).stop out ∧ max s.align 1 ∣ a := by
  obtain ⟨t, ht, hspot⟩ := spot_of_find h
  obtain rfl := Option.mem_unique hs ht
  -- the item of the spot is one of its own part
  have hpart : ∀ out here, (⟨.sec k i, a, s.size⟩ : Spot) ∈ layout here (itemsOf (inputs ++ pulled) out) →
      outputFor s = some out ∧ here ≤ a ∧ a + s.size ≤ after here (itemsOf (inputs ++ pulled) out) ∧
        max s.align 1 ∣ a := by
    intro out here hmem
    obtain ⟨hlow, hhigh, align, hitem, hdvd⟩ := spot_spec hmem
    obtain ⟨-, t, ht, hout, rfl, -⟩ := mem_itemsOf.mp hitem
    obtain rfl := Option.mem_unique hs ht
    exact ⟨hout, hlow, hhigh, hdvd⟩
  rcases mem_spots.mp hspot with h | h | h | h
  · exact ⟨.text, hpart .text _ h⟩
  · exact ⟨.rodata, hpart .rodata _ h⟩
  · exact ⟨.data, hpart .data _ h⟩
  rw [layout_append, mem_append] at h
  rcases h with h | h
  · obtain ⟨hout, hlow, hhigh, hdvd⟩ := hpart .bss _ h
    refine ⟨.bss, hout, hlow, hhigh.trans ?_, hdvd⟩
    change _ ≤ after _ (_ ++ _)
    rw [after_append]
    exact le_after _ _
  · obtain ⟨-, -, align, hitem, -⟩ := spot_spec h
    simp [commonItems] at hitem

end Parts

/-- Of the sections that are placed, those of `.bss` have no contents. -/
lemma outputFor_bss {s : Section} {out : Out} (h : outputFor s = some out) :
    s.type = .nobits ↔ out = .bss := by
  rw [outputFor] at h
  split_ifs at h with h1 h2 h3 h4 h5 <;> cases h <;> simp [h3]

/-! ## The names of global symbols -/

def names (globals : List Global) : List String := globals.map Global.name

variable {globals : List Global}

lemma nodup_updateGlobal (h : (names globals).Nodup) (name : String) {f : Global → Global}
    (hf : ∀ g, (f g).name = g.name) :
    (names (updateGlobal globals name f)).Nodup := by
  have hsame : names (updateGlobal globals name f) = names globals := by
    rw [names, updateGlobal, map_map]
    refine map_congr_left fun g _ => ?_
    rw [Function.comp_apply]
    split
    · exact hf g
    · rfl
  rw [hsame]
  exact h

lemma nodup_internGlobal (h : (names globals).Nodup) (name : String) :
    (names (internGlobal globals name)).Nodup := by
  rw [internGlobal]
  split_ifs with hnone
  · exact h
  refine nodup_cons.mpr ⟨fun hmem => hnone ?_, h⟩
  obtain ⟨g, hg, rfl⟩ := mem_map.mp hmem
  exact find?_isSome.mpr ⟨g, hg, beq_self_eq_true _⟩

lemma nodup_includeSymbol (k : ℕ) (h : (names globals).Nodup)
    (entry : Symbol × ℕ) : (names (includeSymbol k globals entry)).Nodup := by
  have hintern := nodup_internGlobal h entry.1.name
  rw [includeSymbol]
  split
  · exact h
  split
  · exact hintern
  · exact nodup_updateGlobal hintern _ fun _ => rfl
  · exact nodup_updateGlobal hintern _ fun _ => rfl

/-- There is one entry for each name. -/
lemma nodup_collect (inputs pulled : List Object) : (names (collect inputs pulled)).Nodup := by
  have hobjects : ∀ (objs : List (Object × ℕ)) (globals : List Global), (names globals).Nodup →
      (names (objs.foldl includeObject globals)).Nodup := by
    intro objs globals h
    refine foldlRecOn (motive := fun globals => (names globals).Nodup) _ _ h fun _ h entry _ => ?_
    exact foldlRecOn (motive := fun globals => (names globals).Nodup) _ _ h
      fun _ h sym _ => nodup_includeSymbol entry.2 h sym
  have hinputs := hobjects inputs.zipIdx [] nodup_nil
  exact hobjects _ _ (nodup_internGlobal hinputs "_start")

section Commons

variable {inputs pulled : List Object} {g : Global} {a : ℕ}

/-- A common symbol lies in `.bss`, aligned. -/
lemma common_range (hg : g ∈ (linkOf inputs pulled).globals) (howner : g.owner = none)
    (h : (linkOf inputs pulled).globalAddress g = some a) :
    (linkOf inputs pulled).bssStart ≤ a ∧ a + g.commonSize ≤ (linkOf inputs pulled).bssEnd ∧
      max g.commonAlign 1 ∣ a := by
  rw [Link.globalAddress, globalPlace, howner] at h
  obtain ⟨spot, hfind, rfl⟩ := map_eq_some_iff.mp h
  have hkey : spot.key = .common g.name := by simpa using find?_some hfind
  -- no section has the key of a common symbol
  have hsec : ∀ out here, spot ∉ layout here (itemsOf (inputs ++ pulled) out) := by
    intro out here hmem
    obtain ⟨-, -, align, hitem, -⟩ := spot_spec hmem
    rw [hkey] at hitem
    simp [itemsOf] at hitem
  have hbss : spot ∈ layout (linkOf inputs pulled).bssStart
      (itemsOf (inputs ++ pulled) .bss ++ commonItems (collect inputs pulled)) := by
    rcases mem_spots.mp (mem_of_find?_eq_some hfind) with h | h | h | h
    · exact absurd h (hsec _ _)
    · exact absurd h (hsec _ _)
    · exact absurd h (hsec _ _)
    · exact h
  obtain ⟨hlow, hhigh, -⟩ := spot_spec hbss
  rw [layout_append, mem_append] at hbss
  obtain ⟨-, -, align, hitem, hdvd⟩ := spot_spec (hbss.resolve_left (hsec _ _))
  -- the entry that asked for the spot is the one with this name
  obtain ⟨g', hg', heq⟩ := mem_map.mp hitem
  obtain ⟨hname, halign, hsize⟩ := Item.place.inj heq
  rw [hkey] at hname
  have hsame : g' = g := inj_on_of_nodup_map (nodup_collect inputs pulled)
    (mem_of_mem_filter hg') hg (Key.common.inj hname)
  subst hsame
  rw [halign, hsize]
  exact ⟨hlow, hhigh, hdvd⟩

end Commons

/-! ## The image -/

variable {contents : Contents} {x : ℕ}

variable {objs : List Object} {spots : List Spot}

/-- Copying elsewhere leaves a byte as it is. -/
lemma foldl_copySpot_of_lt (h : ∀ s ∈ spots, x < s.address) (img : Buf) :
    spots.foldl (copySpot objs contents) img x = img x := by
  refine foldlRecOn (motive := fun img' : Buf => img' x = img x) _ _ rfl
    fun img' himg s hs => ?_
  have hlt := h s hs
  rw [copySpot]
  cases s.key with
  | common name => exact himg
  | sec k i =>
    dsimp only
    split
    · exact himg
    · exact (Buf.copy_apply_of_not (by omega)).trans himg

/-- Each spot has the contents of its section. -/
lemma foldl_copySpot (hpairs : spots.Pairwise fun s s' => s.address + s.size ≤ s'.address)
    {spot : Spot} (hspot : spot ∈ spots) {k j : ℕ} (hkey : spot.key = .sec k i)
    (hbss : (section? objs k i).bind outputFor ≠ some .bss) (hj : j < spot.size) (img : Buf) :
    spots.foldl (copySpot objs contents) img (spot.address + j) = contents k i j := by
  induction spots generalizing img with
  | nil => cases hspot
  | cons s spots ih =>
    obtain ⟨hfirst, hrest⟩ := pairwise_cons.mp hpairs
    rw [foldl_cons]
    rcases mem_cons.mp hspot with rfl | hspot
    · rw [foldl_copySpot_of_lt fun t ht => by have := hfirst t ht; omega, copySpot, hkey]
      dsimp only
      rw [if_neg hbss, Buf.copy_apply_of_lt (by omega) (by omega), Nat.add_sub_cancel_left]
    · exact ih hrest hspot _

section Image

variable {inputs pulled : List Object} {k i a : ℕ} {s : Section}

theorem copied_section (contents : Contents) (hs : section? (inputs ++ pulled) k i = some s)
    (ha : (linkOf inputs pulled).find (.sec k i) = some a) (hbss : outputFor s ≠ some .bss) {j : ℕ}
    (hj : j < s.size) : (linkOf inputs pulled).copied contents (a + j) = contents k i j := by
  obtain ⟨t, ht, hspot⟩ := spot_of_find ha
  obtain rfl := Option.mem_unique hs ht
  refine foldl_copySpot (layout_pairwise _ _).2 hspot rfl ?_ hj _
  change (section? (inputs ++ pulled) k i).bind outputFor ≠ _
  rw [hs]
  exact hbss

/-- One relocation does to the image, at the place of a section, what it does to the section. -/
lemma applyReloc_section (hwf : WellFormed (inputs ++ pulled))
    (hs : section? (inputs ++ pulled) k i = some s)
    (ha : (linkOf inputs pulled).find (.sec k i) = some a) {e : ℕ × ℕ × Rela}
    (he : e ∈ relocations (inputs ++ pulled)) {img img' b : Buf}
    (h : applyReloc (linkOf inputs pulled) img e = some img')
    (hagree : ∀ j < s.size, img (a + j) = b j) :
    ∀ j < s.size, img' (a + j) = relocateOne (linkOf inputs pulled) k i b e j := by
  intro j hj
  by_cases hown : e.1 = k ∧ e.2.1 = i
  · obtain ⟨rfl, rfl⟩ := hown
    rw [relocateOne, if_pos ⟨rfl, rfl⟩]
    rw [applyReloc, ha] at h
    rw [ha]
    cases hsym : symbol? (linkOf inputs pulled).objs e.1 e.2.2.symbol with
    | none =>
      rw [hsym] at h
      cases h
      exact hagree j hj
    | some sym =>
      rw [hsym] at h
      dsimp only at h ⊢
      cases hlookup : (linkOf inputs pulled).lookup e.1 sym with
      | skip =>
        rw [hlookup] at h
        cases h
        exact hagree j hj
      | error =>
        rw [hlookup] at h
        cases h
      | address v =>
        rw [hlookup] at h
        dsimp only at h ⊢
        split_ifs at h
        cases h
        -- the same field, seen from the start of the section
        have hsub : a + j - (a + e.2.2.offset) = j - e.2.2.offset := by omega
        rw [writeU, writeU, hsub, hagree j hj]
        exact if_congr (by omega) rfl rfl
  · rw [relocateOne, if_neg hown]
    rcases applyReloc_writes h with rfl | ⟨base, v, hbase, rfl⟩
    · exact hagree j hj
    obtain ⟨s', hs', -⟩ := spot_of_find hbase
    have hin := hwf.inside e he s' hs'
    have happart := find_apart hbase ha hs' hs hown
    rw [writeU, if_neg (by omega)]
    exact hagree j hj

/-- The image of a link that succeeds has the relocated bytes of every section with contents. -/
theorem relocated_image (hwf : WellFormed (inputs ++ pulled)) {img : Buf}
    (h : linkExecutable inputs pulled ((linkOf inputs pulled).copied contents) = some img)
    (hs : section? (inputs ++ pulled) k i = some s)
    (ha : (linkOf inputs pulled).find (.sec k i) = some a) (hbss : outputFor s ≠ some .bss) :
    ∀ j < s.size, img (a + j) = relocated (linkOf inputs pulled) contents k i j := by
  -- the fold over the image and the fold over the section go along together
  have hfold : ∀ (es : List (ℕ × ℕ × Rela)) (img0 b : Buf),
      (∀ e ∈ es, e ∈ relocations (inputs ++ pulled)) → (∀ j < s.size, img0 (a + j) = b j) →
      es.foldlM (applyReloc (linkOf inputs pulled)) img0 = some img →
      ∀ j < s.size, img (a + j) = es.foldl (relocateOne (linkOf inputs pulled) k i) b j := by
    intro es
    induction es with
    | nil =>
      intro img0 b _ hagree h
      cases h
      exact hagree
    | cons e es ih =>
      intro img0 b hmem hagree h
      rw [foldlM_cons] at h
      obtain ⟨img1, h1, h⟩ := bind_eq_some_iff.mp h
      exact ih img1 _ (fun x hx => hmem x (mem_cons_of_mem _ hx))
        (applyReloc_section hwf hs ha (hmem e mem_cons_self) h1 hagree) h
  rw [linkExecutable] at h
  split at h
  next => cases h
  next =>
    split_ifs at h
    exact hfold _ _ _ (fun _ he => he) (fun j hj => copied_section contents hs ha hbss hj) h

end Image

/-! ## The headers -/

variable {image : Image} {off n v : ℕ}

/-- A number is read back from its bytes. -/
lemma le_of_bytes (h : ∀ j < n, image.byte ((off + j) % wordSize) = leByte v j) :
    image.le off n = v % 256 ^ n := by
  induction n generalizing off v with
  | zero => rw [Image.le, pow_zero, Nat.mod_one]
  | succ n ih =>
    have hrest : image.le (off + 1) n = v / 256 % 256 ^ n := by
      refine ih fun j hj => ?_
      rw [Nat.add_assoc, Nat.add_comm 1 j, h (j + 1) (by omega), leByte, leByte, Nat.pow_succ',
        Nat.div_div_eq_div_mul]
    have hfirst := h 0 (by omega)
    rw [Nat.add_zero] at hfirst
    rw [Image.le, hfirst, hrest, leByte_toNat, pow_zero, Nat.div_one, Nat.pow_succ', Nat.mod_mul]

/-- The widths of the fields. -/
def widths : List ℕ :=
  [1, 1, 1, 1, 1, 1, 1, 9, 2, 2, 4, 8, 8, 8, 4, 2, 2, 2, 2, 2, 2,
    4, 4, 8, 8, 8, 8, 8, 8, 4, 4, 8, 8, 8, 8, 8, 8]

lemma map_fst_header (l : Link) (entry : ℕ) : (l.header entry).map Prod.fst = widths := rfl

lemma length_fields (fields : List (ℕ × ℕ)) :
    (fields.flatMap fun f => leBytes f.1 f.2).length = (fields.map Prod.fst).sum := by
  simp [length_flatMap, leBytes]

/-- The field number `m` of the headers, which starts at `off`, is read back. -/
theorem le_field (l : Link) (img : Buf) (entry m : ℕ) (hm : (l.header entry)[m]? = some (n, v))
    (hoff : (widths.take m).sum = off) (hend : off + n ≤ 176) :
    (l.file img entry).le off n = v % 256 ^ n := by
  refine le_of_bytes fun j hj => ?_
  obtain ⟨hlt, hget⟩ := List.getElem?_eq_some_iff.mp hm
  have hsplit : l.header entry = (l.header entry).take m ++ (n, v) :: (l.header entry).drop (m + 1) := by
    rw [← hget, getElem_cons_drop, take_append_drop]
  have hlen := length_fields ((l.header entry).take m)
  rw [map_take, map_fst_header, hoff] at hlen
  have hsmall : off + j < wordSize := by
    have : 176 < wordSize := by decide
    omega
  rw [Nat.mod_eq_of_lt hsmall]
  change l.fileByte img entry (off + j) = _
  rw [Link.fileByte, if_pos (by omega), hsplit, flatMap_append, flatMap_cons,
    getD_append_right _ _ _ _ (by omega), hlen, Nat.add_sub_cancel_left,
    getD_append _ _ _ _ (by simp [leBytes, hj])]
  simp [leBytes, hj]

/-- A number that fits its field is read back as it is. -/
lemma le_field_of_lt (l : Link) (img : Buf) (entry m : ℕ)
    (hm : (l.header entry)[m]? = some (n, v)) (hoff : (widths.take m).sum = off)
    (hend : off + n ≤ 176) (hv : v < 256 ^ n) : (l.file img entry).le off n = v := by
  rw [le_field l img entry m hm hoff hend, Nat.mod_eq_of_lt hv]

lemma alignUp_lt (value alignment : ℕ) : alignUp value alignment < value + max alignment 1 := by
  have hle := Nat.div_mul_le_self (value + max alignment 1 - 1) (max alignment 1)
  change (value + max alignment 1 - 1) / max alignment 1 * max alignment 1 < _
  omega

/-! ## Loading a segment -/

/-- What the checks of `elf_load` ask of a segment, where no sum wraps around. -/
structure Fits (ph : Phdr) (size : ℕ) : Prop where
  /-- It is to be loaded. -/
  type : ph.type = 1
  /-- It is not below the user addresses. -/
  low : Mm.userBase ≤ ph.vaddr
  /-- It ends below the stack. -/
  high : ph.vaddr + ph.memsz ≤ Mm.userStackTop - Mm.userStackSize
  /-- It has no more bytes in the file than in memory. -/
  filesz : ph.filesz ≤ ph.memsz
  /-- Its bytes are in the file. -/
  inside : ph.offset + ph.filesz ≤ size

/-- A segment is in memory: its bytes from the file, the zeroes after them, and everything on the
pages below as it was. -/
structure Placed (image : Image) (ph : Phdr) (m m' : Memory) : Prop where
  /-- The bytes of the file are at their addresses. -/
  file : ∀ j < ph.filesz, m'.byte (ph.vaddr + j) = image.byte (ph.offset + j)
  /-- The rest of the segment is zero. -/
  zero : ∀ x, ph.vaddr + ph.filesz ≤ x → x < ph.vaddr + ph.memsz → m'.byte x = 0
  /-- The pages below stay. -/
  below : ∀ x, x / pageSize < ph.vaddr / pageSize → m'.byte x = m.byte x

namespace Memory

lemma foldl_mapPage_byte {vs : List ℕ} (h : ∀ v ∈ vs, x / pageSize ≠ v) (m : Memory) :
    (vs.foldl mapPage m).byte x = m.byte x := by
  refine foldlRecOn (motive := fun m' : Memory => m'.byte x = m.byte x) _ _ rfl
    fun m' hm' v hv => ?_
  rw [mapPage]
  split
  · exact hm'
  · exact (if_neg (h v hv)).trans hm'

/-- Loading a segment that fits. -/
lemma load_placed {ph : Phdr} (h : Fits ph image.size) (m : Memory) :
    Placed image ph m (m.load image ph) where
  file j hj := by
    have hsmall : ph.offset + j < wordSize := by
      have := h.inside
      have := image.size_lt
      omega
    rw [load]
    dsimp only
    rw [if_pos (by omega), Nat.add_sub_cancel_left, Nat.mod_eq_of_lt hsmall]
  zero x hlow hhigh := by
    rw [load]
    dsimp only
    rw [if_neg (by omega), if_pos (by omega)]
  below x hx := by
    have hlt : x < ph.vaddr := by
      by_contra hge
      exact absurd (Nat.div_le_div_right (c := pageSize) (not_lt.mp hge)) (not_le.mpr hx)
    rw [load]
    dsimp only
    rw [if_neg (by omega), if_neg (by omega)]
    -- the pages that are mapped start with that of the segment
    refine foldl_mapPage_byte (fun v hv => ?_) m
    have hv := (mem_range'_1.mp hv).1
    rw [Mm.alignDown, Nat.mul_div_cancel _ (by decide)] at hv
    omega

/-- One round of the loop, for a segment that fits. -/
lemma loop_fits {ph : Phdr} (m : Memory) (hph : image.phdr (image.phdrOffset i) = ph)
    (h : Fits ph image.size) :
    ∃ m', loop image (n + 1) i m = loop image n (i + 1) m' ∧ Placed image ph m m' := by
  have hbound : Mm.userStackTop - Mm.userStackSize < wordSize := by decide
  have hlow := h.low
  have hhigh := h.high
  have hfilesz := h.filesz
  have hinside := h.inside
  have hsize := image.size_lt
  rw [loop, hph, Phdr.verdict]
  by_cases hempty : ph.memsz = 0
  · rw [if_pos (Or.inr hempty)]
    exact ⟨m, rfl, fun j hj => by omega, fun x _ _ => by omega, fun x _ => rfl⟩
  have htop : ph.top = ph.vaddr + ph.memsz := Nat.mod_eq_of_lt (by omega)
  have hrange : ¬ ph.OutOfRange := by
    rw [Phdr.OutOfRange, htop]
    omega
  rw [if_neg (by have := h.type; omega), if_neg hrange,
    if_neg (by rw [Nat.mod_eq_of_lt (by omega)]; omega)]
  exact ⟨_, rfl, load_placed h m⟩

end Memory

/-! ## The linked program in memory -/

/-- The segment of the text and the constants. -/
def Link.textSegment (l : Link) : Phdr :=
  ⟨1, 5, textOffset, textStart, l.rodataEnd - textStart, l.rodataEnd - textStart⟩

/-- The segment of the data, with the `.bss` after what is in the file. -/
def Link.dataSegment (l : Link) : Phdr :=
  ⟨1, 6, l.dataOffset, l.dataStart, l.dataEnd - l.dataStart, l.bssEnd - l.dataStart⟩

lemma textStart_eq : Link.textStart = 0x40000000 := by decide

lemma textOffset_eq : Link.textOffset = 0x1000 := by decide

section File

variable {l : Link} (img : Buf) (entry : ℕ)

lemma file_byte (q : ℕ) : (l.file img entry).byte q = l.fileByte img entry q := rfl

/-- The text and the constants are in the file at their distance from the start of the text. -/
lemma fileByte_text (h : (Link.textStart ≤ x ∧ x < l.textEnd) ∨
    (l.rodataStart ≤ x ∧ x < l.rodataEnd)) :
    l.fileByte img entry (Link.textOffset + (x - Link.textStart)) = img x := by
  have hparts := l.parts_le
  have hback : Link.textStart + (Link.textOffset + (x - Link.textStart) - Link.textOffset) = x := by
    omega
  have hoffset := textOffset_eq
  rw [Link.fileByte, if_neg (by omega), hback]
  by_cases htext : x < l.textEnd
  · rw [if_pos (by omega)]
  · rw [if_neg (by omega), if_pos (by omega)]

/-- So are the data. -/
lemma fileByte_data (hlow : l.dataStart ≤ x) (hhigh : x < l.dataEnd) :
    l.fileByte img entry (l.dataOffset + (x - l.dataStart)) = img x := by
  have hparts := l.parts_le
  have hback : l.dataStart + (l.dataOffset + (x - l.dataStart) - l.dataOffset) = x := by omega
  have hoffset := textOffset_eq
  have hafter : Link.textOffset + (l.rodataEnd - Link.textStart) ≤ l.dataOffset := le_alignUp _ _
  rw [Link.fileByte, if_neg (by omega), if_neg (by omega), if_neg (by omega), if_pos (by omega), hback]

variable (hfits : l.bssEnd < 0x40000000 + 2 ^ 30)

include hfits

/-- The numbers in the headers are those of a program below 1 GiB. -/
lemma offsets_lt : l.dataOffset < 2 ^ 31 ∧ l.dataOffset + (l.dataEnd - l.dataStart) < 2 ^ 32 := by
  have hparts := l.parts_le
  have hstart := textStart_eq
  have hoffset := textOffset_eq
  have hlt : l.dataOffset < Link.textOffset + (l.rodataEnd - Link.textStart) + max 0x1000 1 :=
    alignUp_lt _ _
  omega

/-- The first program header, read back. -/
lemma phdr_text : (l.file img entry).phdr 64 = l.textSegment := by
  have hparts := l.parts_le
  have hoffset := textOffset_eq
  have htype : (l.file img entry).le 64 4 = 1 :=
    le_field_of_lt l img entry 21 rfl (by decide) (by decide) (by decide)
  have hflags : (l.file img entry).le (64 + 4) 4 = 5 :=
    le_field_of_lt l img entry 22 rfl (by decide) (by decide) (by decide)
  have hoff : (l.file img entry).le (64 + 8) 8 = Link.textOffset :=
    le_field_of_lt l img entry 23 rfl (by decide) (by decide) (by omega)
  have hvaddr : (l.file img entry).le (64 + 16) 8 = Link.textStart :=
    le_field_of_lt l img entry 24 rfl (by decide) (by decide) (by omega)
  have hfilesz : (l.file img entry).le (64 + 32) 8 = l.rodataEnd - Link.textStart :=
    le_field_of_lt l img entry 26 rfl (by decide) (by decide) (by omega)
  have hmemsz : (l.file img entry).le (64 + 40) 8 = l.rodataEnd - Link.textStart :=
    le_field_of_lt l img entry 27 rfl (by decide) (by decide) (by omega)
  rw [Image.phdr, htype, hflags, hoff, hvaddr, hfilesz, hmemsz, Link.textSegment]

/-- The second one. -/
lemma phdr_data : (l.file img entry).phdr 120 = l.dataSegment := by
  have hparts := l.parts_le
  have hoffsets := offsets_lt hfits
  have htype : (l.file img entry).le 120 4 = 1 :=
    le_field_of_lt l img entry 29 rfl (by decide) (by decide) (by decide)
  have hflags : (l.file img entry).le (120 + 4) 4 = 6 :=
    le_field_of_lt l img entry 30 rfl (by decide) (by decide) (by decide)
  have hoff : (l.file img entry).le (120 + 8) 8 = l.dataOffset :=
    le_field_of_lt l img entry 31 rfl (by decide) (by decide) (by omega)
  have hvaddr : (l.file img entry).le (120 + 16) 8 = l.dataStart :=
    le_field_of_lt l img entry 32 rfl (by decide) (by decide) (by omega)
  have hfilesz : (l.file img entry).le (120 + 32) 8 = l.dataEnd - l.dataStart :=
    le_field_of_lt l img entry 34 rfl (by decide) (by decide) (by omega)
  have hmemsz : (l.file img entry).le (120 + 40) 8 = l.bssEnd - l.dataStart :=
    le_field_of_lt l img entry 35 rfl (by decide) (by decide) (by omega)
  rw [Image.phdr, htype, hflags, hoff, hvaddr, hfilesz, hmemsz, Link.dataSegment]

lemma file_size : (l.file img entry).size = l.dataOffset + (l.dataEnd - l.dataStart) := by
  have hoffsets := offsets_lt hfits
  refine Nat.mod_eq_of_lt ?_
  rw [wordSize]
  omega

lemma fits_text : Fits l.textSegment (l.file img entry).size := by
  have hparts := l.parts_le
  have hstart := textStart_eq
  have hafter : Link.textOffset + (l.rodataEnd - Link.textStart) ≤ l.dataOffset := le_alignUp _ _
  have hlimit : Mm.userStackTop - Mm.userStackSize = 0xBFFE0000 := by decide
  rw [file_size img entry hfits]
  refine ⟨rfl, hstart.ge, ?_, le_rfl, ?_⟩
  · change Link.textStart + (l.rodataEnd - Link.textStart) ≤ _
    omega
  · change Link.textOffset + (l.rodataEnd - Link.textStart) ≤ _
    omega

lemma fits_data : Fits l.dataSegment (l.file img entry).size := by
  have hparts := l.parts_le
  have hstart := textStart_eq
  have hlimit : Mm.userStackTop - Mm.userStackSize = 0xBFFE0000 := by decide
  rw [file_size img entry hfits]
  refine ⟨rfl, ?_, ?_, ?_, le_rfl⟩
  · change 0x40000000 ≤ l.dataStart
    omega
  · change l.dataStart + (l.bssEnd - l.dataStart) ≤ _
    omega
  · change l.dataEnd - l.dataStart ≤ l.bssEnd - l.dataStart
    omega

/-- The loop goes through the two segments. -/
lemma memory_segments (old : Memory) : ∃ m1 m2, memory (l.file img entry) old = m2.byte ∧
    Placed (l.file img entry) l.textSegment old m1 ∧
    Placed (l.file img entry) l.dataSegment m1 m2 := by
  have hphnum : (l.file img entry).ePhnum = 2 :=
    le_field_of_lt l img entry 17 rfl (by decide) (by decide) (by decide)
  have hphoff : (l.file img entry).ePhoff = 64 :=
    le_field_of_lt l img entry 12 rfl (by decide) (by decide) (by decide)
  have hfirst : (l.file img entry).phdr ((l.file img entry).phdrOffset 0) = l.textSegment := by
    rw [Image.phdrOffset, hphoff]
    exact phdr_text img entry hfits
  have hsecond : (l.file img entry).phdr ((l.file img entry).phdrOffset 1) = l.dataSegment := by
    rw [Image.phdrOffset, hphoff]
    exact phdr_data img entry hfits
  obtain ⟨m1, hloop1, htext⟩ :=
    Memory.loop_fits (n := 1) old hfirst (fits_text img entry hfits)
  obtain ⟨m2, hloop2, hdata⟩ :=
    Memory.loop_fits (n := 0) m1 hsecond (fits_data img entry hfits)
  refine ⟨m1, m2, ?_, htext, hdata⟩
  rw [memory, hphnum, hloop1, hloop2, Memory.loop]

/-- Memory has the image in the parts with contents, and zeroes after the data. -/
lemma memory_file (old : Memory) :
    (∀ x, (Link.textStart ≤ x ∧ x < l.textEnd) ∨ (l.rodataStart ≤ x ∧ x < l.rodataEnd) →
      memory (l.file img entry) old x = img x) ∧
    (∀ x, l.dataStart ≤ x → x < l.dataEnd → memory (l.file img entry) old x = img x) ∧
    ∀ x, l.dataEnd ≤ x → x < l.bssEnd → memory (l.file img entry) old x = 0 := by
  have hparts := l.parts_le
  obtain ⟨m1, m2, hmem, htext, hdata⟩ := memory_segments img entry hfits old
  rw [hmem]
  refine ⟨fun x hx => ?_, fun x hlow hhigh => ?_, fun x hlow hhigh => hdata.zero x ?_ ?_⟩
  · -- the second segment starts on a page of its own
    have hpage : x / pageSize < l.dataStart / pageSize := by
      have hdvd : 0x1000 ∣ l.dataStart := dvd_alignUp l.rodataEnd 0x1000
      rw [pageSize]
      omega
    have hin : x - Link.textStart < l.rodataEnd - Link.textStart := by omega
    have hfile := htext.file (x - Link.textStart) hin
    dsimp only [Link.textSegment] at hfile
    rw [Nat.add_sub_cancel' (by omega)] at hfile
    rw [hdata.below x hpage, hfile, file_byte, fileByte_text img entry hx]
  · have hin : x - l.dataStart < l.dataEnd - l.dataStart := by omega
    have hfile := hdata.file (x - l.dataStart) hin
    dsimp only [Link.dataSegment] at hfile
    rw [Nat.add_sub_cancel' hlow] at hfile
    rw [hfile, file_byte, fileByte_data img entry hlow hhigh]
  · change l.dataStart + (l.dataEnd - l.dataStart) ≤ x
    omega
  · change x < l.dataStart + (l.bssEnd - l.dataStart)
    omega

end File

/-- A program that is accepted is entered where its header says. -/
lemma elfLoad_entry {m : Pmm} {s : Space} {loaded : Loaded} {st : Loader}
    (h : elfLoad image m s = .ok (.ok loaded, st)) : loaded.entry = image.eEntry := by
  rw [elfLoad] at h
  split at h
  next => cases h
  next =>
    split at h
    next => cases h
    next => cases h
    next st' _ =>
      have hfinish : elfFinish image st'.highest = .ok loaded :=
        congrArg Prod.fst (Except.ok.inj h)
      rw [elfFinish] at hfinish
      split_ifs at hfinish
      cases hfinish
      rfl

/-- Linker and loader together: well-formed objects whose layout stays below 1 GiB, a link that
succeeds and a file that the kernel accepts. -/
theorem linked_program_loads {inputs pulled : List Object} (hwf : WellFormed (inputs ++ pulled))
    (hfits : (linkOf inputs pulled).bssEnd < 0x40000000 + 2 ^ 30) {contents : Contents}
    {image : Image}
    (hlink : linkFile inputs pulled contents = some image) {m : Pmm} {space : Space}
    {loaded : Loaded} {st : Loader} (hload : elfLoad image m space = .ok (.ok loaded, st))
    (old : Memory) :
    Composed (linkOf inputs pulled) contents (memory image old) loaded.entry := by
  obtain ⟨img, himg, hlink⟩ := bind_eq_some_iff.mp hlink
  obtain ⟨entry, hentry, rfl⟩ := map_eq_some_iff.mp hlink
  obtain ⟨hcode, hdata, hzero⟩ := memory_file img entry hfits old
  have hparts := (linkOf inputs pulled).parts_le
  constructor
  · intro k i s a hs ha j hj
    obtain ⟨out, hout, hlow, hhigh, -⟩ := section_range hs ha
    by_cases hbss : out = .bss
    · subst hbss
      rw [if_pos ((outputFor_bss hout).mpr rfl)]
      exact hzero _ (by simp only [Link.start] at hlow; omega)
        (by simp only [Link.stop] at hhigh; omega)
    have himage := relocated_image hwf himg hs ha (by rw [hout]; simpa using hbss) j hj
    rw [if_neg (mt (outputFor_bss hout).mp hbss), ← himage]
    cases out with
    | text =>
      simp only [Link.start, Link.stop] at hlow hhigh
      exact hcode _ (.inl ⟨by omega, by omega⟩)
    | rodata =>
      simp only [Link.start, Link.stop] at hlow hhigh
      exact hcode _ (.inr ⟨by omega, by omega⟩)
    | data =>
      simp only [Link.start, Link.stop] at hlow hhigh
      exact hdata _ (by omega) (by omega)
    | bss => exact absurd rfl hbss
  · intro g hg howner a ha j hj
    obtain ⟨hlow, hhigh, -⟩ := common_range hg howner ha
    exact hzero _ (by omega) (by omega)
  · exact (layout_pairwise _ _).2
  · intro k i s a hs ha
    obtain ⟨-, -, -, -, hdvd⟩ := section_range hs ha
    exact hdvd
  · intro g hg howner a ha
    exact (common_range hg howner ha).2.2
  · intro x hx y hy
    have hdvd : 0x1000 ∣ (linkOf inputs pulled).dataStart := dvd_alignUp _ 0x1000
    omega
  · refine ⟨entry, hentry, ?_⟩
    rw [elfLoad_entry hload]
    exact le_field _ img entry 11 rfl (by decide) (by decide)

/-- Sections whose bytes are all their own number. -/
def someContents : Contents := fun _ i _ => UInt8.ofNat i

/-- An object with code, data, `.bss` and a tentative symbol is linked, loaded and composed. -/
theorem sample_loads : ∃ image loaded st,
    linkFile [sample .r32 1] [] someContents = some image ∧
    elfLoad image Mm.smallMachine Proc.freshSpace = .ok (.ok loaded, st) ∧
    Composed (linkOf [sample .r32 1] []) someContents
      (memory image ⟨fun _ => false, Buf.zero⟩) loaded.entry := by
  have hsome : ((linkFile [sample .r32 1] [] someContents).bind fun image =>
      (elfLoad image Mm.smallMachine Proc.freshSpace).toOption.bind
        fun r => r.1.toOption).isSome = true := by
    decide +kernel
  obtain ⟨loaded, hsome⟩ := isSome_iff_exists.mp hsome
  obtain ⟨image, hlink, hsome⟩ := bind_eq_some_iff.mp hsome
  obtain ⟨⟨r, st⟩, hrun, hok⟩ := bind_eq_some_iff.mp hsome
  have hload : elfLoad image Mm.smallMachine Proc.freshSpace = .ok (.ok loaded, st) := by
    cases hresult : elfLoad image Mm.smallMachine Proc.freshSpace with
    | error e =>
      rw [hresult] at hrun
      cases hrun
    | ok pair =>
      rw [hresult] at hrun
      cases hrun
      cases r with
      | error e => cases hok
      | ok loaded' =>
        cases hok
        rfl
  exact ⟨image, loaded, st, hlink, hload,
    linked_program_loads (sample_wellFormed (by decide)) (by decide +kernel) hlink hload _⟩

end Wos.Wcc.Linker
