import Wos.Base.Machine
import Wos.Mm.Shm

/-!
# All users of frames

The frames of the machine go to address spaces, to shared objects and to the files of the memory file
system (`block_get` and `blocks_release` of `kernel/fs/ramfs.c`). This is the machine whose steps are
the calls that move frames between them, by any number of processes in any order.

Files are named by their inode numbers. Their blocks are numbered by a 32-bit offset divided by the
page size, so the sums in `blocks_reserve` do not wrap around.

`handles` is not part of the kernel's state: it counts the references to a shared object that
`shm_create` and `shm_ref` gave out and that have not come back through `shm_unref`.

## Main definitions

* `Blocks`, `blocksReserve`, `blockGet`, `blocksRelease`: the blocks of a file;
* `Memory`, `MemOp`, `MemOp.Allowed`, `MemOp.exec`, `memStep`: the machine.
-/

namespace Wos.Mm

/-! ## The blocks of a file -/

/-- The array of blocks of a `ramfs_node_t`. -/
abbrev Blocks := List (Option ℕ)

/-- The frame of a block. -/
def blockAt (b : Blocks) (i : ℕ) : Option ℕ := b[i]?.join

/-- The size `blocks_reserve` gives an array of `n` blocks that is to hold `count`. -/
def grownCount (n count : ℕ) : ℕ :=
  let doubled := if n = 0 then 4 else n * 2
  if doubled < count then count else doubled

lemma le_grownCount (n count : ℕ) : count ≤ grownCount n count := by
  simp only [grownCount]
  split_ifs <;> omega

/-- `blocks_reserve`; `heapOk` says whether the kernel heap has room for the array. -/
def blocksReserve (b : Blocks) (count : ℕ) (heapOk : Bool) : Option Blocks :=
  if count ≤ b.length then some b
  else if heapOk = false then none
  else some (b ++ List.replicate (grownCount b.length count - b.length) none)

/-- The first half of `block_get`: the array, with room for the block. -/
def blockRoom (b : Blocks) (index : ℕ) (create heapOk : Bool) : Option Blocks :=
  if index < b.length then some b
  else if create = false then none
  else blocksReserve b (index + 1) heapOk

/-- `block_get`. -/
def blockGet (m : Pmm) (b : Blocks) (index : ℕ) (create heapOk : Bool) :
    Option ℕ × Pmm × Blocks :=
  match blockRoom b index create heapOk with
  | none => (none, m, b)
  | some b =>
    match blockAt b index with
    | some f => (some f, m, b)
    | none =>
      if create = false then (none, m, b)
      else
        match zeroedLowFrame m with
        | (none, m) => (none, m, b)
        | (some f, m) => (some f, m, b.set index (some f))

/-- `blocks_release`. -/
def blocksRelease (m : Pmm) (b : Blocks) (start : ℕ) : Except Panic (Pmm × Blocks) :=
  match m.freeFrames ((b.drop start).filterMap id) with
  | .error e => .error e
  | .ok m =>
    .ok (m, if start = 0 then [] else b.take start ++ List.replicate (b.length - start) none)

/-! ## The machine -/

/-- Everything that has to do with frames. -/
structure Memory (ι : Type*) where
  pmm : Pmm
  procs : ι → Option ProcMem
  shms : Shms
  handles : ℕ → ℕ
  files : ℕ → Blocks

/-- The calls that move frames. -/
inductive MemOp (ι : Type*)
  | newSpace (p : ι) (heapOk : Bool)
  | mapAlloc (p : ι) (v : ℕ) (flags : PteFlags)
  | unmap (p : ι) (v : ℕ)
  | shmCreate (o bytes : ℕ) (heapOk : Bool)
  | shmRef (o : ℕ)
  | shmUnref (o : ℕ)
  | shmMap (p : ι) (o : ℕ)
  | shmUnmap (p : ι) (addr : ℕ)
  | shmUnmapAll (p : ι)
  | freeSpace (p : ι)
  | blockGet (n index : ℕ) (create heapOk : Bool)
  | blocksRelease (n start : ℕ)

/-- A page is in a mapping of a process. -/
def ProcMem.Covered (q : ProcMem) (v : ℕ) : Prop := ∃ i, ∃ x ∈ q.maps i, x.Covers v

instance (q : ProcMem) (v : ℕ) : Decidable (q.Covered v) :=
  inferInstanceAs (Decidable (∃ i, ∃ x ∈ q.maps i, x.Covers v))

/-- The entries of the upper table that are a process's own: all but the identity map and the device
window. -/
def OwnEntry (i : ℕ) : Prop := i < 512 ∧ i ≠ 0 ∧ i ≠ deviceWindow / pageSize / 512 / 512

instance (i : ℕ) : Decidable (OwnEntry i) := inferInstanceAs (Decidable (_ ∧ _))

variable {ι : Type*}

/-- When a call may be made. A process maps and unmaps its own pages, and unmaps pages of shared objects
through `shm_unmap` only. A new object is not one that there is; a reference that is given back was
given out before; a space is freed after `shm_unmap_all`. -/
def MemOp.Allowed (w : Memory ι) : MemOp ι → Prop
  | .newSpace p _ => w.procs p = none
  | .mapAlloc p v _ => w.procs p ≠ none ∧ OwnEntry (v / 512 / 512)
  | .unmap p v => (∃ q, w.procs p = some q ∧ ¬ q.Covered v) ∧ OwnEntry (v / 512 / 512)
  | .shmCreate o _ _ => w.shms o = none
  | .shmRef o => w.shms o ≠ none
  | .shmUnref o => 0 < w.handles o
  | .shmMap p _ => w.procs p ≠ none
  | .shmUnmap p _ => w.procs p ≠ none
  | .shmUnmapAll p => w.procs p ≠ none
  | .freeSpace p => ∃ q, w.procs p = some q ∧ ∀ i, q.maps i = none
  | .blockGet _ _ _ _ => True
  | .blocksRelease _ _ => True

instance (w : Memory ι) : (op : MemOp ι) → Decidable (op.Allowed w)
  | .newSpace p _ => inferInstanceAs (Decidable (w.procs p = none))
  | .mapAlloc p v _ => inferInstanceAs (Decidable (w.procs p ≠ none ∧ OwnEntry (v / 512 / 512)))
  | .unmap p v =>
    inferInstanceAs (Decidable ((∃ q ∈ w.procs p, ¬ q.Covered v) ∧ OwnEntry (v / 512 / 512)))
  | .shmCreate o _ _ => inferInstanceAs (Decidable (w.shms o = none))
  | .shmRef o => inferInstanceAs (Decidable (w.shms o ≠ none))
  | .shmUnref o => inferInstanceAs (Decidable (0 < w.handles o))
  | .shmMap p _ => inferInstanceAs (Decidable (w.procs p ≠ none))
  | .shmUnmap p _ => inferInstanceAs (Decidable (w.procs p ≠ none))
  | .shmUnmapAll p => inferInstanceAs (Decidable (w.procs p ≠ none))
  | .freeSpace p => inferInstanceAs (Decidable (∃ q ∈ w.procs p, ∀ i, q.maps i = none))
  | .blockGet _ _ _ _ => isTrue trivial
  | .blocksRelease _ _ => isTrue trivial

variable [DecidableEq ι]

/-- A process after a call, with the frames and the objects it leaves. -/
def Memory.setProc (w : Memory ι) (p : ι) (m : Pmm) (shms : Shms) (q : Option ProcMem) : Memory ι :=
  { w with pmm := m, shms, procs := Function.update w.procs p q }

/-- What a call leaves. -/
def MemOp.exec (w : Memory ι) : MemOp ι → Except Panic (Memory ι)
  | .newSpace p heapOk =>
    match pagingNewAddrspace w.pmm heapOk with
    | .error e => .error e
    | .ok (s, m) => .ok (w.setProc p m w.shms (s.map fun s => ⟨s, fun _ => none, 0, 0⟩))
  | .mapAlloc p v flags =>
    match w.procs p with
    | none => .ok w
    | some q =>
      match pagingMapAlloc w.pmm q.space v flags with
      | .error e => .error e
      | .ok (_, m, space) => .ok (w.setProc p m w.shms (some { q with space }))
  | .unmap p v =>
    match w.procs p with
    | none => .ok w
    | some q =>
      match Mm.unmap w.pmm q.space v true with
      | .error e => .error e
      | .ok (m, space) => .ok (w.setProc p m w.shms (some { q with space }))
  | .shmCreate o bytes heapOk =>
    match Mm.shmCreate w.pmm bytes heapOk with
    | .error e => .error e
    | .ok (none, m) => .ok { w with pmm := m }
    | .ok (some sh, m) => .ok { w with
        pmm := m, shms := Function.update w.shms o (some sh)
        handles := Function.update w.handles o 1 }
  | .shmRef o => .ok { w with
      shms := Mm.shmRef w.shms o, handles := Function.update w.handles o (w.handles o + 1) }
  | .shmUnref o =>
    match Mm.shmUnref w.pmm w.shms o with
    | .error e => .error e
    | .ok (m, shms) => .ok { w with
        pmm := m, shms, handles := Function.update w.handles o (w.handles o - 1) }
  | .shmMap p o =>
    match w.procs p with
    | none => .ok w
    | some q =>
      match Mm.shmMap w.pmm w.shms q o with
      | .error e => .error e
      | .ok (_, m, shms, q) => .ok (w.setProc p m shms (some q))
  | .shmUnmap p addr =>
    match w.procs p with
    | none => .ok w
    | some q =>
      match Mm.shmUnmap w.pmm w.shms q addr with
      | .error e => .error e
      | .ok (_, m, shms, q) => .ok (w.setProc p m shms (some q))
  | .shmUnmapAll p =>
    match w.procs p with
    | none => .ok w
    | some q =>
      match Mm.shmUnmapAll w.pmm w.shms q with
      | .error e => .error e
      | .ok (m, shms, q) => .ok (w.setProc p m shms (some q))
  | .freeSpace p =>
    match w.procs p with
    | none => .ok w
    | some q =>
      match pagingFreeAddrspace w.pmm q.space with
      | .error e => .error e
      | .ok m => .ok (w.setProc p m w.shms none)
  | .blockGet n index create heapOk =>
    let (_, m, b) := Mm.blockGet w.pmm (w.files n) index create heapOk
    .ok { w with pmm := m, files := Function.update w.files n b }
  | .blocksRelease n start =>
    match Mm.blocksRelease w.pmm (w.files n) start with
    | .error e => .error e
    | .ok (m, b) => .ok { w with pmm := m, files := Function.update w.files n b }

/-- One call that may be made and that returns. -/
def memStep : Memory ι → MemOp ι → Memory ι → Prop := exceptStep MemOp.Allowed MemOp.exec

omit [DecidableEq ι] in
/-- The machine with some frames used by the kernel and no process, object or file. -/
def Memory.boot (ι : Type*) (m : Pmm) : Memory ι :=
  ⟨m, fun _ => none, fun _ => none, fun _ => 0, fun _ => []⟩

end Wos.Mm
