import Wos.Abi
import Wos.Mm.Paging

/-!
# The program loader

`elf_load` of `kernel/proc/elf.c`. The image is the memory from its first byte on, addressed modulo
`2 ^ 64`; only the bytes below its size are its own. All header fields are read from it and are
arbitrary, and every sum of them is a 64-bit sum.

The loader keeps a record of the bytes it reads, as offsets into the image, and of the addresses it
writes. The process is a fresh one: its counts of code and data bytes start at 0.

## Main definitions

* `Image`, `Image.phdr`: the image and the program header at an offset;
* `Phdr.verdict`, `Phdr.fieldsRead`: what `elf_load` decides about a header, and the fields it reads;
* `Loader`, `elfSegment`, `elfLoop`, `elfLoad`: the loader.
-/

namespace Wos.Proc

open Mm

/-- A program image in memory. -/
structure Image where
  size : ℕ
  size_lt : size < wordSize
  /-- The byte at an offset; from `size` on it is somebody else's. -/
  byte : ℕ → UInt8

/-- The little-endian number of `n` bytes at an offset. -/
def Image.le (image : Image) (off : ℕ) : ℕ → ℕ
  | 0 => 0
  | n + 1 => (image.byte (off % wordSize)).toNat + 256 * image.le (off + 1) n

/-! ## Headers -/

namespace Image

variable (image : Image)

/-- `sizeof(Elf64_Ehdr)`. -/
def ehdrSize : ℕ := 64

/-- `sizeof(Elf64_Phdr)`. -/
def phdrSize : ℕ := 56

def eType : ℕ := image.le 16 2
def eMachine : ℕ := image.le 18 2
def eEntry : ℕ := image.le 24 8
def ePhoff : ℕ := image.le 32 8
def ePhentsize : ℕ := image.le 54 2
def ePhnum : ℕ := image.le 56 2

end Image

/-- `elf_validate`. -/
def elfValidate (image : Image) : Option Errno :=
  if image.size < Image.ehdrSize then some .ENOEXEC
  else if image.le 0 1 ≠ 0x7F ∨ image.le 1 1 ≠ 0x45 ∨ image.le 2 1 ≠ 0x4C ∨
      image.le 3 1 ≠ 0x46 then some .ENOEXEC
  -- ELFCLASS64, ELFDATA2LSB
  else if image.le 4 1 ≠ 2 ∨ image.le 5 1 ≠ 1 then some .ENOEXEC
  -- ET_EXEC, EM_X86_64
  else if image.eType ≠ 2 ∨ image.eMachine ≠ 62 then some .ENOEXEC
  else if image.ePhoff = 0 ∨ image.ePhnum = 0 ∨ image.ePhentsize ≠ Image.phdrSize then
    some .ENOEXEC
  else if image.size < (image.ePhoff + image.ePhnum * image.ePhentsize) % wordSize then
    some .ENOEXEC
  else none

/-- The fields of `Elf64_Phdr` that are used. -/
structure Phdr where
  type : ℕ
  flags : ℕ
  offset : ℕ
  vaddr : ℕ
  filesz : ℕ
  memsz : ℕ

/-- The program header at an offset. -/
def Image.phdr (image : Image) (o : ℕ) : Phdr where
  type := image.le o 4
  flags := image.le (o + 4) 4
  offset := image.le (o + 8) 8
  vaddr := image.le (o + 16) 8
  filesz := image.le (o + 32) 8
  memsz := image.le (o + 40) 8

/-- The offset of `ph[i]`. -/
def Image.phdrOffset (image : Image) (i : ℕ) : ℕ :=
  (image.ePhoff + i * Image.phdrSize) % wordSize

/-- Some consecutive bytes; addresses wrap around. -/
structure Access where
  start : ℕ
  len : ℕ
  deriving DecidableEq

/-- What is done with a header: it is stepped over, refused, or its segment is loaded. -/
inductive Verdict
  | skip
  | reject
  | load
  deriving DecidableEq

namespace Phdr

variable (ph : Phdr)

/-- `vaddr + memsz`. -/
def top : ℕ := (ph.vaddr + ph.memsz) % wordSize

/-- The segment would reach into kernel space or into the stack. -/
def OutOfRange : Prop := ph.vaddr < userBase ∨ userStackTop - userStackSize < ph.top

instance : Decidable ph.OutOfRange := inferInstanceAs (Decidable (_ ∨ _))

/-- The checks of `elf_load` on a header of an image of the given size. -/
def verdict (size : ℕ) : Verdict :=
  if ph.type ≠ 1 ∨ ph.memsz = 0 then .skip
  else if ph.OutOfRange then .reject
  else if ph.memsz < ph.filesz ∨ size < (ph.offset + ph.filesz) % wordSize then .reject
  else .load

/-- The fields these checks read, for a header at offset `o`. -/
def fieldsRead (o : ℕ) : List Access :=
  ⟨o, 4⟩ ::
    if ph.type ≠ 1 then []
    else ⟨o + 40, 8⟩ ::
      if ph.memsz = 0 then []
      else ⟨o + 16, 8⟩ :: ⟨o + 32, 8⟩ ::
        if ph.OutOfRange ∨ ph.memsz < ph.filesz then [] else [⟨o + 8, 8⟩]

end Phdr

/-! ## Loading -/

/-- The loader at work. -/
structure Loader where
  pmm : Pmm
  space : Space
  /-- The bytes of the image that were read, as offsets. -/
  reads : List Access
  /-- The bytes that were written, as virtual addresses. -/
  writes : List Access
  codeBytes : ℕ
  dataBytes : ℕ
  highest : ℕ

/-- The contents of a segment whose pages are there: `memcpy`, `memset` of what is beyond the file, and
the figures of the process. -/
def Loader.copySegment (st : Loader) (o : ℕ) (ph : Phdr) : Loader :=
  let bss := if ph.filesz < ph.memsz then
    [(⟨ph.vaddr + ph.filesz, ph.memsz - ph.filesz⟩ : Access)] else []
  let bytes := (wordSize + alignUp ph.top - alignDown ph.vaddr) % wordSize
  { st with
    reads := ⟨o + 4, 4⟩ :: ⟨ph.offset, ph.filesz⟩ :: st.reads
    writes := bss ++ ⟨ph.vaddr, ph.filesz⟩ :: st.writes
    -- PF_X
    codeBytes := if ph.flags % 2 = 1 then (st.codeBytes + bytes) % wordSize else st.codeBytes
    dataBytes := if ph.flags % 2 = 1 then st.dataBytes else (st.dataBytes + bytes) % wordSize
    highest := if st.highest < ph.top then ph.top else st.highest }

/-- A segment that passed the checks: its pages, then its contents. -/
def Loader.loadSegment (st : Loader) (o : ℕ) (ph : Phdr) : Except Panic (Option Errno × Loader) :=
  let start := alignDown ph.vaddr
  let stop := alignUp ph.top
  match mapRange true ((stop - start) / pageSize) (start / pageSize) st.pmm st.space with
  | .error e => .error e
  | .ok (mapped, pages, pmm, space) =>
    let st := { st with
      pmm, space, writes := pages.map (fun v => ⟨v * pageSize, pageSize⟩) ++ st.writes }
    if mapped = false then .ok (some .ENOMEM, st) else .ok (none, st.copySegment o ph)

/-- Some bytes of the image were read. -/
def Loader.read (st : Loader) (accesses : List Access) : Loader :=
  { st with reads := accesses ++ st.reads }

/-- One round of the loop of `elf_load`, with the error it returns. -/
def elfSegment (image : Image) (i : ℕ) (st : Loader) : Except Panic (Option Errno × Loader) :=
  let o := image.phdrOffset i
  let ph := image.phdr o
  let st := st.read (ph.fieldsRead o)
  match ph.verdict image.size with
  | .skip => .ok (none, st)
  | .reject => .ok (some .ENOEXEC, st)
  | .load => st.loadSegment o ph

/-- The loop of `elf_load`: `n` more headers from `ph[i]` on. -/
def elfLoop (image : Image) : ℕ → ℕ → Loader → Except Panic (Option Errno × Loader)
  | 0, _, st => .ok (none, st)
  | n + 1, i, st =>
    match elfSegment image i st with
    | .error e => .error e
    | .ok (some e, st) => .ok (some e, st)
    | .ok (none, st) => elfLoop image n (i + 1) st

/-- What `elf_load` leaves behind when it succeeds. -/
structure Loaded where
  entry : ℕ
  heapStart : ℕ

/-- The loader before the first program header. Nothing is read of an image that is too short for its
header. -/
def Loader.start (image : Image) (m : Pmm) (s : Space) : Loader where
  pmm := m
  space := s
  reads := if image.size < Image.ehdrSize then [] else [⟨0, Image.ehdrSize⟩]
  writes := []
  codeBytes := 0
  dataBytes := 0
  highest := 0

/-- The end of `elf_load`: something was loaded, and the program starts in it. -/
def elfFinish (image : Image) (highest : ℕ) : Except Errno Loaded :=
  if highest = 0 then .error .ENOEXEC
  else if image.eEntry < userBase ∨ highest ≤ image.eEntry then .error .ENOEXEC
  else .ok ⟨image.eEntry, alignUp highest⟩

/-- `elf_load`. -/
def elfLoad (image : Image) (m : Pmm) (s : Space) :
    Except Panic (Except Errno Loaded × Loader) :=
  match elfValidate image with
  | some e => .ok (.error e, Loader.start image m s)
  | none =>
    match elfLoop image image.ePhnum 0 (Loader.start image m s) with
    | .error e => .error e
    | .ok (some e, st) => .ok (.error e, st)
    | .ok (none, st) => .ok (elfFinish image st.highest, st)

end Wos.Proc
