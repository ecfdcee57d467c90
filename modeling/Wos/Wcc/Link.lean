import Mathlib.Data.List.Pairwise
import Wos.Base.Bytes
import Wos.Base.Machine

/-!
# The linker

`link_executable` takes the objects into the link one by one, lays their sections out from
`0x40000000` on, gives every global symbol its address and then goes through the relocations. Which
members are pulled out of archives is left open: what is shown here holds for every list of objects
that ends up in the link. The code counts the bytes of each part of the output in an `int` and adds
sizes to it as an `int`. The numbers here have no bound: they are those of the code as long as the
program stays below 2 GiB, which `Linkable` asks for.

## Main definitions

* `Section`, `Symbol`, `Object`: the parts of an object the linker reads;
* `layout`, `Link.find`: the places of sections and common symbols;
* `applyReloc`, `linkExecutable`: the relocations;
* `Link.symbolAddress`, `Applied`: a relocation holds in the image;
* `placeOf`: where the sizes and alignments of what comes before it put something;
* `Linkable`, `Sound`: objects that belong together, and the condition on a relocation.

## Main results

* `layout_pairwise`: no two parts of the layout overlap;
* `find_eq_placeOf`: everything is placed where the formula puts it;
* `relocations_applied_iff`: when a successful link has applied every relocation.
-/

namespace Wos.Wcc.Linker

open Wos List
open Option hiding mem_map

/-! ## Objects -/

/-- The types of sections that the linker tells apart. -/
inductive SectionType
  | progbits | nobits | rela | other
  deriving DecidableEq, Repr

/-- The types of relocations. -/
inductive RelocType
  | r64 | r32 | r32s | pc32 | plt32 | other
  deriving DecidableEq, Repr

/-- An entry of a relocation section. -/
structure Rela where
  offset : ℕ
  type : RelocType
  symbol : ℕ
  addend : ℤ
  deriving DecidableEq, Repr

/-- A section: its header, and the entries if it holds relocations. -/
structure Section where
  name : String
  type : SectionType
  alloc : Bool
  exec : Bool
  write : Bool
  align : ℕ
  size : ℕ
  /-- The section that relocations are for, `sh_info`. -/
  info : ℕ
  relas : List Rela
  deriving DecidableEq, Repr

/-- Where a symbol is defined. -/
inductive SymbolSection
  | undef | abs | common | index (i : ℕ)
  deriving DecidableEq, Repr

/-- An entry of a symbol table. -/
structure Symbol where
  name : String
  /-- Whether the binding is global; local and weak symbols are treated alike. -/
  isGlobal : Bool
  /-- Whether the type is `STT_SECTION`. -/
  isSection : Bool
  section_ : SymbolSection
  value : ℕ
  size : ℕ
  deriving DecidableEq, Repr

structure Object where
  sections : List Section
  symbols : List Symbol
  deriving DecidableEq, Repr

/-- The parts of the output. -/
inductive Out
  | text | rodata | data | bss
  deriving DecidableEq, Repr

/-- `output_for`. -/
def outputFor (s : Section) : Option Out :=
  if !s.alloc then none
  else if ".eh_frame".isPrefixOf s.name || ".note".isPrefixOf s.name then none
  else if s.type = .nobits then some .bss
  else if s.exec then some .text
  else if s.write then some .data
  else some .rodata

/-- `align_up`. -/
def alignUp (value alignment : ℕ) : ℕ :=
  let a := max alignment 1
  (value + a - 1) / a * a

/-! ## Global symbols -/

/-- `global_symbol_t` before the layout: the first definition, or the needs of the tentative ones. -/
structure Global where
  name : String
  owner : Option (ℕ × ℕ)
  commonSize : ℕ
  commonAlign : ℕ
  deriving DecidableEq, Repr

/-- `find_global`. -/
def findGlobal (globals : List Global) (name : String) : Option Global :=
  globals.find? (·.name == name)

/-- `intern_global`. -/
def internGlobal (globals : List Global) (name : String) : List Global :=
  if (findGlobal globals name).isSome then globals else ⟨name, none, 0, 0⟩ :: globals

/-- The change of one entry of the table. -/
def updateGlobal (globals : List Global) (name : String) (f : Global → Global) : List Global :=
  globals.map fun g => if g.name = name then f g else g

/-- What `include_object` makes of one symbol. -/
def includeSymbol (k : ℕ) (globals : List Global) (entry : Symbol × ℕ) : List Global :=
  let sym := entry.1
  if !sym.isGlobal || sym.name = "" then globals
  else
    let globals := internGlobal globals sym.name
    match sym.section_ with
    | .undef => globals
    | .common => updateGlobal globals sym.name fun g =>
      { g with commonAlign := max g.commonAlign sym.value, commonSize := max g.commonSize sym.size }
    -- the first definition wins
    | _ => updateGlobal globals sym.name fun g => { g with owner := g.owner.or (some (k, entry.2)) }

/-- `include_object`. -/
def includeObject (globals : List Global) (entry : Object × ℕ) : List Global :=
  entry.1.symbols.zipIdx.foldl (includeSymbol entry.2) globals

/-- The symbols of the objects on the command line, the entry point, and the symbols of the members
pulled out of archives. -/
def collect (inputs pulled : List Object) : List Global :=
  let globals := inputs.zipIdx.foldl includeObject []
  (pulled.zipIdx inputs.length).foldl includeObject (internGlobal globals "_start")

/-! ## The layout -/

/-- What is given a place: a section of an object, or a common symbol. -/
inductive Key
  | sec (k i : ℕ)
  | common (name : String)
  deriving DecidableEq, Repr

/-- What the layout goes through: the start of a part of the output, or something to place. -/
inductive Item
  | page
  | place (key : Key) (align size : ℕ)

/-- A place: its address and its size. -/
structure Spot where
  key : Key
  address : ℕ
  size : ℕ
  deriving DecidableEq, Repr

/-- The layout from an address on; the counts of the code are this far from the start of their part
while they fit an `int`. -/
def layout : ℕ → List Item → List Spot
  | _, [] => []
  | here, .page :: items => layout (alignUp here 0x1000) items
  | here, .place key align size :: items =>
    ⟨key, alignUp here align, size⟩ :: layout (alignUp here align + size) items

/-- The address after some items. -/
def after : ℕ → List Item → ℕ
  | here, [] => here
  | here, .page :: items => after (alignUp here 0x1000) items
  | here, .place _ align size :: items => after (alignUp here align + size) items

/-- The sections of all objects but the null ones. -/
def inputSections (objs : List Object) : List (ℕ × ℕ × Section) :=
  objs.zipIdx.flatMap fun o => (o.1.sections.zipIdx.drop 1).map fun s => (o.2, s.2, s.1)

def section? (objs : List Object) (k i : ℕ) : Option Section := objs[k]?.bind (·.sections[i]?)

def symbol? (objs : List Object) (k i : ℕ) : Option Symbol := objs[k]?.bind (·.symbols[i]?)

/-- The sections that go into one part of the output. -/
def itemsOf (objs : List Object) (out : Out) : List Item :=
  ((inputSections objs).filter fun s => outputFor s.2.2 = some out).map fun s =>
    .place (.sec s.1 s.2.1) s.2.2.align s.2.2.size

/-- Tentative symbols come at the end of `.bss`. -/
def commonItems (globals : List Global) : List Item :=
  (globals.filter fun g => g.owner.isNone && g.commonSize != 0).map fun g =>
    .place (.common g.name) g.commonAlign g.commonSize

def items (objs : List Object) (globals : List Global) : List Item :=
  ([Out.text, .rodata, .data, .bss].flatMap fun out => .page :: itemsOf objs out) ++
    commonItems globals

/-- The address of a symbol that its own object defines, when places are known. -/
def ownPlace (place : Key → Option ℕ) (k : ℕ) (sym : Symbol) : Option ℕ :=
  match sym.section_ with
  | .abs => some sym.value
  | .index i => (place (.sec k i)).map (· + sym.value)
  | _ => none

/-- The address of a global symbol. -/
def globalPlace (place : Key → Option ℕ) (objs : List Object) (g : Global) : Option ℕ :=
  match g.owner with
  | some (k, i) => (symbol? objs k i).bind (ownPlace place k)
  | none => place (.common g.name)

/-- The address of a symbol's definition. -/
def symbolPlace (place : Key → Option ℕ) (objs : List Object) (globals : List Global) (k : ℕ)
    (sym : Symbol) : Option ℕ :=
  if sym.section_ = .undef ∨ sym.isGlobal then
    (findGlobal globals sym.name).bind (globalPlace place objs)
  else ownPlace place k sym

/-- What the linker knows once the layout is done. -/
structure Link where
  objs : List Object
  globals : List Global
  spots : List Spot

namespace Link

/-- `placed_at`, for what is placed. -/
def find (l : Link) (key : Key) : Option ℕ := (l.spots.find? (·.key = key)).map Spot.address

/-- The address a global symbol gets. -/
def globalAddress (l : Link) (g : Global) : Option ℕ := globalPlace l.find l.objs g

/-- What a relocation finds for its symbol: an address, nothing that matters, or an error. -/
inductive Found
  | address (v : ℕ)
  | skip
  | error

/-- The address of a place, or `continue`. -/
def foundAt (place : Option ℕ) (value : ℕ) : Found :=
  match place with
  | some a => .address (a + value)
  | none => .skip

/-- The symbol of a relocation. -/
def lookup (l : Link) (k : ℕ) (sym : Symbol) : Found :=
  if sym.isSection then
    match sym.section_ with
    | .index i => foundAt (l.find (.sec k i)) 0
    | _ => .skip
  else if sym.section_ = .undef ∨ sym.isGlobal then
    match (findGlobal l.globals sym.name).bind l.globalAddress with
    | some v => .address v
    | none => .error
  else
    match sym.section_ with
    | .abs => .address sym.value
    | .index i => foundAt (l.find (.sec k i)) sym.value
    | _ => .skip

end Link

/-! ## The relocations -/

/-- The bytes a relocation fills. -/
def RelocType.width : RelocType → ℕ
  | r64 => 8
  | _ => 4

/-- The number it fills them with, for a symbol at `s` and a place at `p`. -/
def RelocType.value (t : RelocType) (s : ℕ) (a : ℤ) (p : ℕ) : ℤ :=
  match t with
  | pc32 | plt32 => s + a - p
  | _ => s + a

/-- `write_u`, of a number as an `unsigned long`. -/
def writeU (img : Buf) (p : ℕ) (v : ℤ) (n : ℕ) : Buf := fun q =>
  if p ≤ q ∧ q < p + n then leByte (v % 2 ^ 64).toNat (q - p) else img q

/-- The relocations of the sections that are placed and have contents, in order: the object, the
section they are for, and the entry. -/
def relocations (objs : List Object) : List (ℕ × ℕ × Rela) :=
  (inputSections objs).flatMap fun s =>
    if s.2.2.type = .rela ∧ 0 < s.2.2.info then
      match section? objs s.1 s.2.2.info with
      | some target =>
        if outputFor target = none ∨ outputFor target = some .bss then []
        else s.2.2.relas.map fun r => (s.1, s.2.2.info, r)
      | none => []
    else []

/-- One relocation; nothing is returned for an error. -/
def applyReloc (l : Link) (img : Buf) (e : ℕ × ℕ × Rela) : Option Buf :=
  match l.find (.sec e.1 e.2.1), symbol? l.objs e.1 e.2.2.symbol with
  | some base, some sym =>
    match l.lookup e.1 sym with
    | .skip => some img
    | .error => none
    | .address v =>
      let p := base + e.2.2.offset
      if e.2.2.type = .other then none
      else some (writeU img p (e.2.2.type.value v e.2.2.addend p) e.2.2.type.width)
  | _, _ => some img

/-- The objects, the symbols and the layout. -/
def linkOf (inputs pulled : List Object) : Link :=
  let globals := collect inputs pulled
  ⟨inputs ++ pulled, globals, layout 0x40000000 (items (inputs ++ pulled) globals)⟩

/-- `link_executable` up to the writing of the file, from what was copied into the buffers. It stops
at an undefined symbol, and at a global one in a section that is not placed. -/
def linkExecutable (inputs pulled : List Object) (img : Buf) : Option Buf :=
  let l := linkOf inputs pulled
  if l.globals.any fun g => g.owner.isNone && g.commonSize == 0 then none
  else if l.globals.any fun g => (l.globalAddress g).isNone then none
  else (relocations l.objs).foldlM (applyReloc l) img

/-! ## What a relocation asks for -/

/-- The final address of a symbol's definition. -/
def Link.symbolAddress (l : Link) (k : ℕ) (sym : Symbol) : Option ℕ :=
  symbolPlace l.find l.objs l.globals k sym

/-- The numbers a field can hold. -/
def RelocType.Represents (t : RelocType) (v : ℤ) : Prop :=
  match t with
  | r64 => True
  | r32 => 0 ≤ v ∧ v < 2 ^ 32
  | r32s | pc32 | plt32 => -2 ^ 31 ≤ v ∧ v < 2 ^ 31
  | other => False

/-- The bytes at `p` are those of `v`. -/
def Holds (img : Buf) (p : ℕ) (v : ℤ) (n : ℕ) : Prop :=
  ∀ i < n, img (p + i) = leByte (v % 2 ^ 64).toNat i

/-- The relocation holds in the image: its symbol has an address, and the field has the number that
belongs there and can represent it. -/
def Applied (l : Link) (img : Buf) (e : ℕ × ℕ × Rela) : Prop :=
  ∃ base sym s, l.find (.sec e.1 e.2.1) = some base ∧
    symbol? l.objs e.1 e.2.2.symbol = some sym ∧ l.symbolAddress e.1 sym = some s ∧
    Holds img (base + e.2.2.offset) (e.2.2.type.value s e.2.2.addend (base + e.2.2.offset))
      e.2.2.type.width ∧
    e.2.2.type.Represents (e.2.2.type.value s e.2.2.addend (base + e.2.2.offset))

/-- A section of an object is not dropped. -/
def Kept (objs : List Object) (k i : ℕ) : Prop :=
  0 < i ∧ ∃ s, section? objs k i = some s ∧ outputFor s ≠ none

/-- Whether an item is the place of something. -/
def Item.isFor (key : Key) : Item → Bool
  | page => false
  | place key' _ _ => key' = key

/-- The alignment an item asks for. -/
def Item.align : Item → ℕ
  | page => 0x1000
  | place _ align _ => align

/-- Where the sizes and alignments of the items before it put something. -/
def placeOf (items : List Item) (here : ℕ) (key : Key) : Option ℕ :=
  (items.find? (·.isFor key)).map fun item =>
    alignUp (after here (items.takeWhile fun before => !before.isFor key)) item.align

/-- The places that the headers of the objects and their tentative symbols ask for. -/
def headerPlace (inputs pulled : List Object) : Key → Option ℕ :=
  placeOf (items (inputs ++ pulled) (collect inputs pulled)) 0x40000000

/-- The condition on a relocation, from the headers and the tables of the objects: a symbol that is
not global lies in a section that is kept, and the sizes and alignments of what comes before the
symbol and before the field, with the addend, leave a number that the field can hold. The linker
itself looks at neither. -/
structure Sound (inputs pulled : List Object) (e : ℕ × ℕ × Rela) : Prop where
  kept : ∀ sym i, symbol? (inputs ++ pulled) e.1 e.2.2.symbol = some sym → sym.isGlobal = false →
    sym.section_ = .index i → Kept (inputs ++ pulled) e.1 i
  fits : ∀ base sym s, headerPlace inputs pulled (.sec e.1 e.2.1) = some base →
    symbol? (inputs ++ pulled) e.1 e.2.2.symbol = some sym →
    symbolPlace (headerPlace inputs pulled) (inputs ++ pulled) (collect inputs pulled) e.1 sym =
      some s →
    e.2.2.type ≠ .other →
    e.2.2.type.Represents (e.2.2.type.value s e.2.2.addend (base + e.2.2.offset))

/-- Well-formed objects. -/
structure WellFormed (objs : List Object) : Prop where
  /-- Relocations name symbols of their object. -/
  named : ∀ e ∈ relocations objs, ∃ sym, symbol? objs e.1 e.2.2.symbol = some sym
  /-- They fill fields of their section. -/
  inside : ∀ e ∈ relocations objs, ∀ s, section? objs e.1 e.2.1 = some s →
    e.2.2.offset + e.2.2.type.width ≤ s.size
  /-- The fields do not overlap. -/
  apart : (relocations objs).Pairwise fun e e' => e.1 = e'.1 → e.2.1 = e'.2.1 →
    e.2.2.offset + e.2.2.type.width ≤ e'.2.2.offset ∨
      e'.2.2.offset + e'.2.2.type.width ≤ e.2.2.offset
  /-- A section symbol is local and stands for the start of its section. -/
  section_symbol : ∀ k i sym, symbol? objs k i = some sym → sym.isSection = true →
    sym.isGlobal = false ∧ sym.value = 0 ∧ ∃ j, sym.section_ = .index j
  /-- Only global symbols are common. -/
  common_global : ∀ k i sym, symbol? objs k i = some sym → sym.section_ = .common →
    sym.isGlobal = true

/-- Well-formed objects of less than 2 GiB together. -/
structure Linkable (inputs pulled : List Object) : Prop extends WellFormed (inputs ++ pulled) where
  /-- No count of bytes overflows its `int`. -/
  sized : after 0x40000000 (items (inputs ++ pulled) (collect inputs pulled)) < 0x40000000 + 2 ^ 31

/-! ## The layout -/

lemma le_alignUp (value alignment : ℕ) : value ≤ alignUp value alignment := by
  have hpos : 0 < max alignment 1 := by omega
  have hlt := Nat.lt_div_mul_add (a := value + max alignment 1 - 1) hpos
  change value ≤ (value + max alignment 1 - 1) / max alignment 1 * max alignment 1
  omega

/-- Everything is placed at the running address or after it, and in order. -/
theorem layout_pairwise (here : ℕ) (items : List Item) :
    (∀ s ∈ layout here items, here ≤ s.address) ∧
      (layout here items).Pairwise fun s s' => s.address + s.size ≤ s'.address := by
  induction items generalizing here with
  | nil => exact ⟨by simp [layout], List.Pairwise.nil⟩
  | cons item items ih =>
    cases item with
    | page =>
      obtain ⟨hlow, hpairs⟩ := ih (alignUp here 0x1000)
      exact ⟨fun s hs => (le_alignUp _ _).trans (hlow s hs), hpairs⟩
    | place key align size =>
      obtain ⟨hlow, hpairs⟩ := ih (alignUp here align + size)
      have hhere := le_alignUp here align
      refine ⟨fun s hs => ?_, pairwise_cons.mpr ⟨hlow, hpairs⟩⟩
      rcases mem_cons.mp hs with rfl | hs
      · exact hhere
      · have := hlow s hs
        omega

/-- The layout follows the formula. -/
lemma layout_find (key : Key) (here : ℕ) (items : List Item) :
    ((layout here items).find? (·.key = key)).map Spot.address = placeOf items here key := by
  induction items generalizing here with
  | nil => rfl
  | cons item items ih =>
    cases item with
    | page => simp [layout, ih, placeOf, Item.isFor, after]
    | place key' align size =>
      by_cases hkey : key' = key
      · simp [layout, placeOf, Item.isFor, hkey, after, Item.align]
      · simp [layout, ih, placeOf, Item.isFor, hkey, after]

variable {size : ℕ}

/-- The spots are those of the items. -/
lemma exists_spot_iff {key : Key} {here : ℕ} {items : List Item} :
    (∃ a, (⟨key, a, size⟩ : Spot) ∈ layout here items) ↔
      ∃ align, Item.place key align size ∈ items := by
  induction items generalizing here with
  | nil => simp [layout]
  | cons item items ih =>
    cases item with
    | page => simp [layout, ih]
    | place key' align size' =>
      simp only [layout, mem_cons, Spot.mk.injEq, Item.place.injEq, exists_or, ih]
      refine or_congr_left ?_
      constructor
      · rintro ⟨a, rfl, rfl, rfl⟩
        exact ⟨align, rfl, rfl, rfl⟩
      · rintro ⟨a, rfl, rfl, rfl⟩
        exact ⟨_, rfl, rfl, rfl⟩

variable {objs : List Object} {k i : ℕ}

variable {s : Section} {align symbol : ℕ} {type : RelocType}

/-- The sections that are looked at: all of every object but number 0. -/
lemma mem_inputSections :
    (k, i, s) ∈ inputSections objs ↔ 0 < i ∧ section? objs k i = some s := by
  have hdrop : ∀ sections : List Section,
      (s, i) ∈ sections.zipIdx.drop 1 ↔ 0 < i ∧ sections[i]? = some s := by
    intro sections
    cases sections with
    | nil => simp
    | cons first rest =>
      rw [zipIdx_cons, drop_one, tail_cons, mk_mem_zipIdx_iff_le_and_getElem?_sub]
      cases i with
      | zero => simp
      | succ i => simp
  simp only [inputSections, mem_flatMap, mem_map, Prod.mk.injEq, section?,
    bind_eq_some_iff, Prod.exists]
  constructor
  · rintro ⟨o, k', ho, s', i', hs, rfl, rfl, rfl⟩
    obtain ⟨hpos, hs⟩ := (hdrop o.sections).mp hs
    exact ⟨hpos, o, mk_mem_zipIdx_iff_getElem?.mp ho, hs⟩
  · rintro ⟨hpos, o, ho, hs⟩
    exact ⟨o, k, mk_mem_zipIdx_iff_getElem?.mpr ho, s, i, (hdrop o.sections).mpr ⟨hpos, hs⟩,
      rfl, rfl, rfl⟩

lemma mem_itemsOf {out : Out} :
    Item.place (.sec k i) align size ∈ itemsOf objs out ↔
      0 < i ∧ ∃ s, section? objs k i = some s ∧ outputFor s = some out ∧ s.align = align ∧
        s.size = size := by
  simp only [itemsOf, mem_map, mem_filter, Prod.exists, Item.place.injEq, Key.sec.injEq,
    decide_eq_true_eq, mem_inputSections]
  constructor
  · rintro ⟨k', i', s, ⟨⟨hpos, hs⟩, hout⟩, ⟨rfl, rfl⟩, rfl, rfl⟩
    exact ⟨hpos, s, hs, hout, rfl, rfl⟩
  · rintro ⟨hpos, s, hs, hout, rfl, rfl⟩
    exact ⟨k, i, s, ⟨⟨hpos, hs⟩, hout⟩, ⟨rfl, rfl⟩, rfl, rfl⟩

/-- The sections that are not dropped are placed, with their own sizes. -/
lemma mem_items_sec {globals : List Global} :
    Item.place (.sec k i) align size ∈ items objs globals ↔
      0 < i ∧ ∃ s, section? objs k i = some s ∧ outputFor s ≠ none ∧ s.align = align ∧
        s.size = size := by
  have hcommon : Item.place (.sec k i) align size ∉ commonItems globals := by
    simp [commonItems]
  simp only [items, mem_append, hcommon, or_false, mem_flatMap, mem_cons,
    reduceCtorEq, false_or, mem_itemsOf]
  constructor
  · rintro ⟨out, -, hpos, s, hs, hout, halign, hsize⟩
    exact ⟨hpos, s, hs, by rw [hout]; exact some_ne_none out, halign, hsize⟩
  rintro ⟨hpos, s, hs, hout, halign, hsize⟩
  obtain ⟨out, hout⟩ := ne_none_iff_exists'.mp hout
  refine ⟨out, ?_, hpos, s, hs, hout, halign, hsize⟩
  cases out <;> simp

section Places

variable {inputs pulled : List Object}

/-- Everything is placed where the headers of what comes before put it. -/
theorem find_eq_placeOf : (linkOf inputs pulled).find = headerPlace inputs pulled :=
  funext fun key => layout_find key _ _

/-- A place that is found is a spot of the size of its section. -/
lemma spot_of_find {a : ℕ} (h : (linkOf inputs pulled).find (.sec k i) = some a) :
    ∃ s, section? (inputs ++ pulled) k i = some s ∧
      (⟨.sec k i, a, s.size⟩ : Spot) ∈ (linkOf inputs pulled).spots := by
  obtain ⟨spot, hspot, rfl⟩ := map_eq_some_iff.mp h
  have hmem := mem_of_find?_eq_some hspot
  have hkey : spot.key = .sec k i := by simpa using find?_some hspot
  have hitem := exists_spot_iff.mp ⟨spot.address, (hkey ▸ hmem : (⟨.sec k i, spot.address, spot.size⟩ :
    Spot) ∈ layout 0x40000000 (items (inputs ++ pulled) (collect inputs pulled)))⟩
  obtain ⟨align, hitem⟩ := hitem
  obtain ⟨-, s, hs, -, -, hsize⟩ := mem_items_sec.mp hitem
  refine ⟨s, hs, ?_⟩
  rw [hsize, ← hkey]
  exact hmem

/-- A section has a place if and only if it is kept. -/
lemma find_ne_none_iff :
    (linkOf inputs pulled).find (.sec k i) ≠ none ↔ Kept (inputs ++ pulled) k i := by
  have hfind : (linkOf inputs pulled).find (.sec k i) ≠ none ↔
      ∃ size a, (⟨.sec k i, a, size⟩ : Spot) ∈ (linkOf inputs pulled).spots := by
    rw [Link.find, ne_eq, map_eq_none_iff, find?_eq_none]
    push Not
    constructor
    · rintro ⟨spot, hspot, hkey⟩
      refine ⟨spot.size, spot.address, ?_⟩
      rw [← of_decide_eq_true hkey]
      exact hspot
    · rintro ⟨size, a, hspot⟩
      exact ⟨_, hspot, decide_eq_true rfl⟩
  rw [hfind]
  constructor
  · rintro ⟨size, hspot⟩
    obtain ⟨align, hitem⟩ := exists_spot_iff.mp hspot
    obtain ⟨hpos, s, hs, hout, -, -⟩ := mem_items_sec.mp hitem
    exact ⟨hpos, s, hs, hout⟩
  · rintro ⟨hpos, s, hs, hout⟩
    exact ⟨s.size, exists_spot_iff.mpr ⟨s.align, mem_items_sec.mpr ⟨hpos, s, hs, hout, rfl, rfl⟩⟩⟩

/-- Two different sections do not overlap. -/
lemma find_apart {a k' i' a' : ℕ} {s' : Section}
    (h : (linkOf inputs pulled).find (.sec k i) = some a)
    (h' : (linkOf inputs pulled).find (.sec k' i') = some a')
    (hs : section? (inputs ++ pulled) k i = some s)
    (hs' : section? (inputs ++ pulled) k' i' = some s') (hne : ¬ (k = k' ∧ i = i')) :
    a + s.size ≤ a' ∨ a' + s'.size ≤ a := by
  obtain ⟨t, ht, hspot⟩ := spot_of_find h
  obtain ⟨t', ht', hspot'⟩ := spot_of_find h'
  obtain rfl := Option.mem_unique hs ht
  obtain rfl := Option.mem_unique hs' ht'
  have hpairs := (layout_pairwise 0x40000000 (items (inputs ++ pulled) (collect inputs pulled))).2
  -- the two spots differ, and one of them comes first
  have hor := hpairs.imp (S := fun x y : Spot => x.address + x.size ≤ y.address ∨
    y.address + y.size ≤ x.address) .inl
  have hsymm : Std.Symm fun x y : Spot => x.address + x.size ≤ y.address ∨
      y.address + y.size ≤ x.address := ⟨fun _ _ => Or.symm⟩
  refine hor.forall hspot hspot' fun heq => hne ?_
  exact Key.sec.inj (congrArg Spot.key heq)

end Places

/-! ## A fold of writes -/

/-- What a step makes and later steps keep holds at the end of a fold that succeeds. -/
lemma foldlM_makes {α β : Type*} {f : β → α → Option β} {P : α → β → Prop} {R : α → α → Prop}
    {as : List α} (hmake : ∀ a ∈ as, ∀ b b', f b a = some b' → P a b')
    (hkeep : ∀ a a' b b', R a a' → P a b → f b a' = some b' → P a b') (hR : as.Pairwise R) {b b' : β}
    (h : as.foldlM f b = some b') : ∀ a ∈ as, P a b' := by
  induction as generalizing b with
  | nil => simp
  | cons a as ih =>
    obtain ⟨hRa, hRs⟩ := pairwise_cons.mp hR
    rw [foldlM_cons] at h
    obtain ⟨b1, hb1, h1⟩ := bind_eq_some_iff.mp h
    intro x hx
    rcases mem_cons.mp hx with rfl | hx
    · -- the rest of the fold keeps it
      exact foldlM_keeps (P := P x) (fun a' ha' b b' => hkeep x a' b b' (hRa a' ha'))
        (hmake x mem_cons_self b b1 hb1) h1
    · exact ih (fun y hy => hmake y (mem_cons_of_mem _ hy)) hRs h1 x hx

lemma holds_writeU (img : Buf) (p : ℕ) (v : ℤ) (n : ℕ) : Holds (writeU img p v n) p v n := by
  intro i hi
  rw [writeU, if_pos (by omega), Nat.add_sub_cancel_left]

variable {img : Buf}

/-- A write elsewhere keeps a field. -/
lemma Holds.writeU {p n q m : ℕ} {v w : ℤ} (h : Holds img p v n)
    (happart : p + n ≤ q ∨ q + m ≤ p) : Holds (writeU img q w m) p v n := by
  intro i hi
  rw [Linker.writeU, if_neg (by omega)]
  exact h i hi

/-! ## Symbols -/

section Relocations

variable {inputs pulled : List Object} {e : ℕ × ℕ × Rela} {sym : Symbol}

/-- A relocation is for a section that is placed. -/
lemma target_kept (he : e ∈ relocations objs) : Kept objs e.1 e.2.1 := by
  obtain ⟨⟨k, i, s⟩, -, he⟩ := mem_flatMap.mp he
  split at he
  next hrela =>
    split at he
    next target htarget =>
      split at he
      next => cases he
      next hout =>
        obtain ⟨r, -, rfl⟩ := mem_map.mp he
        exact ⟨hrela.2, target, htarget, (not_or.mp hout).1⟩
    next => cases he
  next => cases he

/-- The lookup of a symbol whose section is kept gives its address, or stops the link. -/
lemma lookup_of_kept (hwf : WellFormed (inputs ++ pulled))
    (hsym : symbol? (inputs ++ pulled) e.1 e.2.2.symbol = some sym)
    (hkept : ∀ i, sym.isGlobal = false → sym.section_ = .index i → Kept (inputs ++ pulled) e.1 i) :
    (∃ v, (linkOf inputs pulled).symbolAddress e.1 sym = some v ∧
        (linkOf inputs pulled).lookup e.1 sym = .address v) ∨
      (linkOf inputs pulled).lookup e.1 sym = .error := by
  by_cases hglobal : sym.section_ = .undef ∨ sym.isGlobal = true
  · have hsec : sym.isSection = false := by
      by_contra hsec
      obtain ⟨hlocal, -, j, hj⟩ := hwf.section_symbol _ _ _ hsym (by simpa using hsec)
      rcases hglobal with h | h
      · rw [hj] at h
        cases h
      · rw [hlocal] at h
        cases h
    rw [Link.lookup, hsec, if_neg Bool.false_ne_true, if_pos hglobal, Link.symbolAddress,
      symbolPlace, if_pos hglobal]
    cases hfound : (findGlobal (linkOf inputs pulled).globals sym.name).bind
      (linkOf inputs pulled).globalAddress with
    | none => exact .inr rfl
    | some v => exact .inl ⟨v, hfound, rfl⟩
  · left
    rw [Link.symbolAddress, symbolPlace, if_neg hglobal, Link.lookup, if_neg hglobal, ownPlace]
    obtain ⟨hundef, hlocal⟩ := not_or.mp hglobal
    cases hsection : sym.section_ with
    | undef => exact absurd hsection hundef
    | common => exact absurd (hwf.common_global _ _ _ hsym hsection) hlocal
    | abs =>
      have hsec : ¬ sym.isSection = true := by
        intro hsec
        obtain ⟨-, -, j, hj⟩ := hwf.section_symbol _ _ _ hsym hsec
        rw [hsection] at hj
        cases hj
      rw [if_neg hsec]
      exact ⟨_, rfl, rfl⟩
    | index i =>
      have hplace := find_ne_none_iff.mpr (hkept i (by simpa using hlocal) hsection)
      obtain ⟨a, ha⟩ := ne_none_iff_exists'.mp hplace
      refine ⟨a + sym.value, ?_, ?_⟩
      · simp [ha]
      split
      next hsec =>
        obtain ⟨-, hzero, -⟩ := hwf.section_symbol _ _ _ hsym hsec
        simp only [ha, hzero, Link.foundAt]
      next => simp only [ha, Link.foundAt]

/-- A symbol that is not global has no address if its section is dropped. -/
lemma kept_of_address {s : ℕ} (h : (linkOf inputs pulled).symbolAddress e.1 sym = some s)
    (hlocal : sym.isGlobal = false)
    (hsection : sym.section_ = .index i) : Kept (inputs ++ pulled) e.1 i := by
  rw [Link.symbolAddress, symbolPlace, if_neg (by rw [hsection, hlocal]; simp), ownPlace,
    hsection] at h
  obtain ⟨a, ha, -⟩ := map_eq_some_iff.mp h
  exact find_ne_none_iff.mp (by rw [ha]; exact some_ne_none a)

/-! ## The relocations -/

/-- The field of a relocation has the number that belongs there. -/
def Filled (l : Link) (e : ℕ × ℕ × Rela) (img : Buf) : Prop :=
  ∃ base sym s, l.find (.sec e.1 e.2.1) = some base ∧
    symbol? l.objs e.1 e.2.2.symbol = some sym ∧ l.symbolAddress e.1 sym = some s ∧
    e.2.2.type ≠ .other ∧
    Holds img (base + e.2.2.offset) (e.2.2.type.value s e.2.2.addend (base + e.2.2.offset))
      e.2.2.type.width

variable {img' : Buf}

/-- One relocation fills its field. -/
lemma applyReloc_fills (hwf : WellFormed (inputs ++ pulled))
    (he : e ∈ relocations (inputs ++ pulled)) (hsound : Sound inputs pulled e)
    (h : applyReloc (linkOf inputs pulled) img e = some img') :
    Filled (linkOf inputs pulled) e img' := by
  obtain ⟨sym, hsym⟩ := hwf.named e he
  obtain ⟨base, hbase⟩ :=
    ne_none_iff_exists'.mp (find_ne_none_iff.mpr (target_kept he))
  have hsym' : symbol? (linkOf inputs pulled).objs e.1 e.2.2.symbol = some sym := hsym
  rw [applyReloc, hbase, hsym'] at h
  dsimp only at h
  rcases lookup_of_kept hwf hsym fun i => hsound.kept sym i hsym with ⟨v, hv, hlookup⟩ | hlookup
  · rw [hlookup] at h
    dsimp only at h
    split_ifs at h with htype
    cases h
    exact ⟨base, sym, v, hbase, hsym, hv, htype, holds_writeU _ _ _ _⟩
  · rw [hlookup] at h
    cases h

/-- A relocation writes its own field at most. -/
lemma applyReloc_writes {l : Link} (h : applyReloc l img e = some img') :
    img' = img ∨ ∃ base v, l.find (.sec e.1 e.2.1) = some base ∧
      img' = writeU img (base + e.2.2.offset) v e.2.2.type.width := by
  rw [applyReloc] at h
  split at h
  next base sym hbase hsym =>
    split at h
    next =>
      cases h
      exact .inl rfl
    next => cases h
    next =>
      split_ifs at h
      cases h
      exact .inr ⟨base, _, hbase, rfl⟩
  next =>
    cases h
    exact .inl rfl

/-- The fields of two relocations that are for different places. -/
lemma fields_apart (hwf : WellFormed (inputs ++ pulled)) {e' : ℕ × ℕ × Rela} {base base' : ℕ}
    (he : e ∈ relocations (inputs ++ pulled)) (he' : e' ∈ relocations (inputs ++ pulled))
    (happart : e.1 = e'.1 → e.2.1 = e'.2.1 →
      e.2.2.offset + e.2.2.type.width ≤ e'.2.2.offset ∨
        e'.2.2.offset + e'.2.2.type.width ≤ e.2.2.offset)
    (hbase : (linkOf inputs pulled).find (.sec e.1 e.2.1) = some base)
    (hbase' : (linkOf inputs pulled).find (.sec e'.1 e'.2.1) = some base') :
    base + e.2.2.offset + e.2.2.type.width ≤ base' + e'.2.2.offset ∨
      base' + e'.2.2.offset + e'.2.2.type.width ≤ base + e.2.2.offset := by
  obtain ⟨s, hs, -⟩ := spot_of_find hbase
  obtain ⟨s', hs', -⟩ := spot_of_find hbase'
  have hin := hwf.inside e he s hs
  have hin' := hwf.inside e' he' s' hs'
  by_cases hsame : e.1 = e'.1 ∧ e.2.1 = e'.2.1
  · have hplace : base = base' := by
      rw [hsame.1, hsame.2] at hbase
      exact Option.mem_unique hbase hbase'
    omega
  · have := find_apart hbase hbase' hs hs' hsame
    omega

/-- A link that succeeds has filled the fields of all relocations, if they are sound. -/
lemma linkExecutable_fills (hwf : WellFormed (inputs ++ pulled))
    (hsound : ∀ e ∈ relocations (inputs ++ pulled), Sound inputs pulled e)
    (h : linkExecutable inputs pulled img = some img') :
    ∀ e ∈ relocations (inputs ++ pulled), Filled (linkOf inputs pulled) e img' := by
  have hfold : (relocations (inputs ++ pulled)).foldlM (applyReloc (linkOf inputs pulled)) img =
      some img' := by
    rw [linkExecutable] at h
    split at h
    next => cases h
    next =>
      split_ifs at h
      exact h
  -- later relocations are apart from earlier ones
  refine foldlM_makes (fun e he b b' hb => applyReloc_fills hwf he (hsound e he) hb) ?_
    (List.Pairwise.and_mem.mp hwf.apart) hfold
  rintro e e' b b' ⟨he, he', happart⟩ ⟨base, sym, s, hbase, hsym, hs, htype, hholds⟩ hb
  refine ⟨base, sym, s, hbase, hsym, hs, htype, ?_⟩
  rcases applyReloc_writes hb with rfl | ⟨base', v, hbase', rfl⟩
  · exact hholds
  · exact hholds.writeU (fields_apart hwf he he' happart hbase hbase')

/-- A successful link of well-formed objects below 2 GiB has applied every relocation if and only if
the relocations are all sound. -/
theorem relocations_applied_iff (hwf : Linkable inputs pulled) {img img' : Buf}
    (h : linkExecutable inputs pulled img = some img') :
    (∀ e ∈ relocations (inputs ++ pulled), Applied (linkOf inputs pulled) img' e) ↔
      ∀ e ∈ relocations (inputs ++ pulled), Sound inputs pulled e := by
  constructor
  · intro happlied e he
    obtain ⟨base, sym, s, hbase, hsym, hs, -, hrep⟩ := happlied e he
    constructor
    · intro sym' i hsym' hlocal hsection
      obtain rfl := Option.mem_unique hsym hsym'
      exact kept_of_address hs hlocal hsection
    -- the addresses in the image are those of the formula
    rw [← find_eq_placeOf]
    intro base' sym' s' hbase' hsym' hs' _
    obtain rfl := Option.mem_unique hbase hbase'
    obtain rfl := Option.mem_unique hsym hsym'
    obtain rfl := Option.mem_unique hs hs'
    exact hrep
  · intro hsound e he
    obtain ⟨base, sym, s, hbase, hsym, hs, htype, hholds⟩ :=
      linkExecutable_fills hwf.toWellFormed hsound h e he
    have hfits := (hsound e he).fits
    rw [← find_eq_placeOf] at hfits
    exact ⟨base, sym, s, hbase, hsym, hs, hholds, hfits base sym s hbase hsym hs htype⟩

end Relocations

/-- An object with code, data, `.bss` and a tentative symbol, and one relocation for the code, against
the symbol with index one or two: the entry point, or a local symbol in a note. -/
def sample (type : RelocType) (symbol : ℕ) : Object where
  sections := [⟨"", .other, false, false, false, 0, 0, 0, []⟩,
    ⟨".text", .progbits, true, true, false, 16, 8, 0, []⟩,
    ⟨".rela.text", .rela, false, false, false, 8, 24, 1, [⟨0, type, symbol, 0⟩]⟩,
    ⟨".note.wos", .progbits, true, false, false, 4, 16, 0, []⟩,
    ⟨".data", .progbits, true, false, true, 8, 12, 0, []⟩,
    ⟨".bss", .nobits, true, false, true, 16, 40, 0, []⟩]
  symbols := [⟨"", false, false, .undef, 0, 0⟩, ⟨"_start", true, false, .index 1, 0, 8⟩,
    ⟨"note", false, false, .index 3, 4, 0⟩, ⟨"buffer", true, false, .common, 32, 64⟩]

lemma relocations_sample (type : RelocType) (symbol : ℕ) :
    relocations [sample type symbol] = [(0, 1, ⟨0, type, symbol, 0⟩)] := by
  have hkept : outputFor ⟨".text", .progbits, true, true, false, 16, 8, 0, []⟩ = some .text := by
    decide +kernel
  simp [relocations, inputSections, sample, section?, hkept]

lemma symbol_sample {sym : Symbol} (h : symbol? [sample type symbol] k i = some sym) :
    sym = ⟨"", false, false, .undef, 0, 0⟩ ∨ sym = ⟨"_start", true, false, .index 1, 0, 8⟩ ∨
      sym = ⟨"note", false, false, .index 3, 4, 0⟩ ∨
        sym = ⟨"buffer", true, false, .common, 32, 64⟩ := by
  obtain ⟨o, ho, hsym⟩ := bind_eq_some_iff.mp h
  obtain rfl := mem_singleton.mp (mem_of_getElem? ho)
  simpa [sample] using mem_of_getElem? hsym

lemma sample_wellFormed (h : symbol < 3) :
    WellFormed [sample type symbol] where
  named := by
    rw [relocations_sample]
    intro e he
    obtain rfl := mem_singleton.mp he
    have hlt : symbol < (sample type symbol).symbols.length := h.trans (by simp [sample])
    exact ⟨(sample type symbol).symbols.get ⟨symbol, hlt⟩, getElem?_eq_getElem hlt⟩
  inside := by
    rw [relocations_sample]
    intro e he s hs
    obtain rfl := mem_singleton.mp he
    cases hs
    cases type <;> simp [RelocType.width]
  apart := by
    rw [relocations_sample]
    exact pairwise_singleton _ _
  section_symbol := by
    intro k i sym hsym hsec
    rcases symbol_sample hsym with rfl | rfl | rfl | rfl <;> cases hsec
  common_global := by
    intro k i sym hsym hcommon
    rcases symbol_sample hsym with rfl | rfl | rfl | rfl
    case inr.inr.inr => rfl
    all_goals cases hcommon

/-- With the address of the entry point in 32 bits, the link succeeds and the relocation holds. -/
theorem sample_linked : ∃ img, linkExecutable [sample .r32 1] [] Buf.zero = some img ∧
    ∀ e ∈ relocations [sample .r32 1], Applied (linkOf [sample .r32 1] []) img e := by
  have hsome : (linkExecutable [sample .r32 1] [] Buf.zero).isSome = true := by decide +kernel
  obtain ⟨img, himg⟩ := isSome_iff_exists.mp hsome
  have hwf : Linkable [sample .r32 1] [] := ⟨sample_wellFormed (by decide), by decide +kernel⟩
  refine ⟨img, himg, (relocations_applied_iff hwf himg).mpr ?_⟩
  rw [append_nil, relocations_sample]
  intro e he
  obtain rfl := mem_singleton.mp he
  have hbase : headerPlace [sample .r32 1] [] (.sec 0 1) = some 0x40000000 := by decide +kernel
  have haddr : symbolPlace (headerPlace [sample .r32 1] []) [sample .r32 1]
      (collect [sample .r32 1] []) 0 ⟨"_start", true, false, .index 1, 0, 8⟩ = some 0x40000000 := by
    decide +kernel
  constructor
  · intro sym i hsym hlocal _
    cases hsym
    cases hlocal
  intro base sym s hfind hsym hs _
  cases hsym
  obtain rfl := Option.mem_unique hfind hbase
  obtain rfl := Option.mem_unique hs haddr
  exact ⟨by decide, by decide⟩

/-- With the address of the note, the link succeeds, and the field is left as it was. -/
theorem dropped_symbol_skipped : Linkable [sample .r64 2] [] ∧
    linkExecutable [sample .r64 2] [] Buf.zero = some Buf.zero ∧
    ∃ e ∈ relocations [sample .r64 2], ¬ Applied (linkOf [sample .r64 2] []) Buf.zero e := by
  have hnone : (linkOf [sample .r64 2] []).symbolAddress 0 ⟨"note", false, false, .index 3, 4, 0⟩ =
      none := by decide +kernel
  have hdropped : (linkOf [sample .r64 2] []).find (.sec 0 3) = none := by decide +kernel
  have hbase : (linkOf [sample .r64 2] []).find (.sec 0 1) = some 0x40000000 := by decide +kernel
  have hskip : applyReloc (linkOf [sample .r64 2] []) Buf.zero (0, 1, ⟨0, .r64, 2, 0⟩) =
      some Buf.zero := by
    have hsym : symbol? (linkOf [sample .r64 2] []).objs 0 2 =
        some ⟨"note", false, false, .index 3, 4, 0⟩ := rfl
    simp [applyReloc, hbase, hsym, Link.lookup, hdropped, Link.foundAt]
  refine ⟨⟨sample_wellFormed (by decide), by decide +kernel⟩, ?_, (0, 1, ⟨0, .r64, 2, 0⟩), ?_, ?_⟩
  · have hobjs : (linkOf [sample .r64 2] []).objs = [sample .r64 2] := rfl
    rw [linkExecutable, if_neg (by decide +kernel), if_neg (by decide +kernel), hobjs,
      relocations_sample, foldlM_cons, hskip]
    rfl
  · rw [relocations_sample]
    exact mem_singleton_self _
  · rintro ⟨base, sym, s, -, hsym, hs, -, -⟩
    cases hsym
    rw [hnone] at hs
    cases hs

end Wos.Wcc.Linker
