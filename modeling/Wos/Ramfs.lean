import Wos.Wfs.Contents

/-!
# Writes that fail for want of space

`wfs_write` and `ramfs_write` return an error when not even the first byte has room. Both then still
raise the size of the file to the offset of the write: a failed write past the end leaves a longer
file. Otherwise nothing changes.

The in-memory filesystem keeps a file as an array of pages, with nothing where no page was written.
Here the array holds the pages themselves. Whether memory is to be had is decided for every request
by its number.

## Main definitions

* `Node`, `Ram`, `blocksReserve`, `blockGet`: files of the in-memory filesystem;
* `ramfsRead`, `ramfsWrite`.

## Main results

* `writeFile_nospace`, `ramfsWrite_nospace`: what a write without space leaves behind;
* `failed_write_keeps_iff`: when that is what was there before.
-/

namespace Wos.Ramfs

open Wfs Nat

/-! ## The in-memory filesystem -/

/-- `ramfs_node_t`, as far as contents go. -/
structure Node where
  isFile : Bool
  size : ℕ
  blockCount : ℕ
  blocks : ℕ → Option Buf

/-- The nodes by inode number, and how often memory was asked for. -/
structure Ram where
  nodes : ℕ → Option Node
  asked : ℕ

/-- `node_of`; there are 1024 numbers. -/
def nodeOf (s : Ram) (ino : ℕ) : Option Node :=
  if ino = 0 ∨ 1024 ≤ ino then none else s.nodes ino

/-- `blocks_reserve`: the old pointers are copied into a longer array of zeroes. -/
def blocksReserve (memory : ℕ → Bool) (n : Node) (asked count : ℕ) : Bool × Node × ℕ :=
  if count ≤ n.blockCount then (true, n, asked)
  else
    let grown := if n.blockCount ≠ 0 then n.blockCount * 2 else 4
    let grown := if grown < count then count else grown
    if memory asked then
      (true, { n with
        blocks := fun i => if i < n.blockCount then n.blocks i else none
        blockCount := grown }, asked + 1)
    else (false, n, asked + 1)

/-- The page at an index, as `block_get` finds it without allocating. -/
def Node.page (n : Node) (index : ℕ) : Option Buf :=
  if n.blockCount ≤ index then none else n.blocks index

/-- `block_get` with `create`. -/
def blockGet (memory : ℕ → Bool) (n : Node) (asked index : ℕ) : Option Buf × Node × ℕ :=
  match blocksReserve memory n asked (index + 1) with
  | (false, n, asked) => (none, n, asked)
  | (true, n, asked) =>
    match n.blocks index with
    | some page => (some page, n, asked)
    | none =>
      if memory asked then
        (some Buf.zero, { n with blocks := Function.update n.blocks index (some Buf.zero) },
          asked + 1)
      else (none, n, asked + 1)

/-- The loop of `ramfs_read`; every round delivers a byte, so `len` rounds are enough. -/
def ramReadLoop (n : Node) (off len : ℕ) : ℕ → ℕ → List UInt8
  | 0, _ => []
  | fuel + 1, done =>
    if len ≤ done then []
    else
      let pos := (off + done) % 4294967296
      let chunk := min (4096 - pos % 4096) (len - done)
      ((n.page (pos / 4096)).getD Buf.zero).slice (pos % 4096) chunk ++
        ramReadLoop n off len fuel (done + chunk)

/-- `ramfs_read`. -/
def ramfsRead (s : Ram) (ino off len : ℕ) : Except Errno (List UInt8) :=
  match nodeOf s ino with
  | none => .error .ENOENT
  | some n =>
    if n.isFile = false then .error .EISDIR
    else if n.size ≤ off then .ok []
    else
      let len := if n.size - off < len then n.size - off else len
      .ok (ramReadLoop n off len len 0)

/-- The loop of `ramfs_write`: the bytes stored, up to the first page that is not to be had. -/
def ramWriteLoop (memory : ℕ → Bool) (off : ℕ) (buf : Buf) (len : ℕ) :
    ℕ → Node → ℕ → ℕ → ℕ × Node × ℕ
  | 0, n, asked, done => (done, n, asked)
  | fuel + 1, n, asked, done =>
    if len ≤ done then (done, n, asked)
    else
      let pos := (off + done) % 4294967296
      let chunk := min (4096 - pos % 4096) (len - done)
      match blockGet memory n asked (pos / 4096) with
      | (none, n, asked) => (done, n, asked)
      | (some page, n, asked) =>
        let page := page.copy (pos % 4096) (buf.drop done) chunk
        ramWriteLoop memory off buf len fuel
          { n with blocks := Function.update n.blocks (pos / 4096) (some page) } asked (done + chunk)

/-- `ramfs_write`. -/
def ramfsWrite (memory : ℕ → Bool) (s : Ram) (ino off : ℕ) (buf : Buf) (len : ℕ) :
    Except Errno ℕ × Ram :=
  match nodeOf s ino with
  | none => (.error .ENOENT, s)
  | some n =>
    if n.isFile = false then (.error .EISDIR, s)
    else
      let (done, n, asked) := ramWriteLoop memory off buf len len n s.asked 0
      let reached := (off + done) % 4294967296
      let n := if n.size < reached then { n with size := reached } else n
      let s := { nodes := Function.update s.nodes ino (some n), asked := asked }
      if done = 0 ∧ 0 < len then (.error .ENOSPC, s) else (.ok done, s)

/-! ## A failed write in memory -/

lemma blocksReserve_page (memory : ℕ → Bool) (n : Node) (asked count i : ℕ) :
    (blocksReserve memory n asked count).2.1.page i = n.page i := by
  rw [blocksReserve]
  split
  · rfl
  dsimp only
  split
  · -- the pointers past the old array are zero
    rw [Node.page, Node.page]
    dsimp only
    split_ifs <;> first | rfl | omega
  · rfl

lemma blocksReserve_same (memory : ℕ → Bool) (n : Node) (asked count : ℕ) :
    (blocksReserve memory n asked count).2.1.isFile = n.isFile ∧
      (blocksReserve memory n asked count).2.1.size = n.size := by
  rw [blocksReserve]
  split
  · exact ⟨rfl, rfl⟩
  · dsimp only
    split <;> exact ⟨rfl, rfl⟩

variable {memory : ℕ → Bool} {n n' : Node} {off len asked asked' : ℕ} {buf : Buf}

/-- Where there is no page to be had, the file has the pages it had. -/
lemma blockGet_none {index : ℕ} (h : blockGet memory n asked index = (none, n', asked')) :
    n'.isFile = n.isFile ∧ n'.size = n.size ∧ ∀ i, n'.page i = n.page i := by
  have hpage := blocksReserve_page memory n asked (index + 1)
  have hsame := blocksReserve_same memory n asked (index + 1)
  rw [blockGet] at h
  generalize blocksReserve memory n asked (index + 1) = r at h hpage hsame
  obtain ⟨ok, n1, asked1⟩ := r
  cases ok with
  | false =>
    cases h
    exact ⟨hsame.1, hsame.2, hpage⟩
  | true =>
    dsimp only at h
    split at h
    next => cases h
    next =>
      split at h
      next => cases h
      next =>
        cases h
        exact ⟨hsame.1, hsame.2, hpage⟩

/-- The loop never counts backwards. -/
lemma le_ramWriteLoop (memory : ℕ → Bool) (off : ℕ) (buf : Buf) (len fuel : ℕ) (n : Node)
    (asked done : ℕ) : done ≤ (ramWriteLoop memory off buf len fuel n asked done).1 := by
  induction fuel generalizing n asked done with
  | zero => exact le_rfl
  | succ fuel ih =>
    rw [ramWriteLoop]
    split
    · exact le_rfl
    dsimp only
    split
    · exact le_rfl
    · exact (le_add_right _ _).trans (ih _ _ _)

/-- A loop that stored nothing kept the pages. -/
lemma ramWriteLoop_zero (h : ramWriteLoop memory off buf len len n asked 0 = (0, n', asked')) :
    n'.isFile = n.isFile ∧ n'.size = n.size ∧ ∀ i, n'.page i = n.page i := by
  cases len with
  | zero =>
    cases h
    exact ⟨rfl, rfl, fun _ => rfl⟩
  | succ len =>
    rw [ramWriteLoop, if_neg (by omega)] at h
    dsimp only at h
    split at h
    next hget =>
      cases h
      exact blockGet_none hget
    next =>
      -- a page was had, and at least one byte stored
      have hle := congrArg Prod.fst h ▸ le_ramWriteLoop memory off buf (len + 1) len _ _ _
      omega

lemma ramReadLoop_congr (h : ∀ i, n'.page i = n.page i) (off len fuel done : ℕ) :
    ramReadLoop n' off len fuel done = ramReadLoop n off len fuel done := by
  induction fuel generalizing done with
  | zero => rfl
  | succ fuel ih =>
    rw [ramReadLoop, ramReadLoop]
    simp only [h, ih]

/-- Without space for a byte the node is the one before, but for its size. -/
theorem ramfsWrite_nospace {s s' : Ram} {ino : ℕ}
    (h : ramfsWrite memory s ino off buf len = (.error .ENOSPC, s')) :
    ∃ n n', nodeOf s ino = some n ∧ nodeOf s' ino = some n' ∧ n'.isFile = n.isFile ∧
      n'.size = max n.size (off % 4294967296) ∧ ∀ i, n'.page i = n.page i := by
  rw [ramfsWrite] at h
  split at h
  next => cases h
  next n hn =>
    split at h
    next => cases h
    next =>
      have hloop := fun n' asked' => @ramWriteLoop_zero memory n n' off len s.asked asked' buf
      generalize ramWriteLoop memory off buf len len n s.asked 0 = r at h hloop
      obtain ⟨done, n1, asked⟩ := r
      dsimp only at h
      split at h
      next hzero =>
        obtain ⟨rfl, -⟩ := hzero
        obtain ⟨hfile, hsize, hpage⟩ := hloop n1 asked rfl
        cases h
        have hvalid : ¬ (ino = 0 ∨ 1024 ≤ ino) := by
          intro hbad
          rw [nodeOf, if_pos hbad] at hn
          cases hn
        refine ⟨n, _, hn, (if_neg hvalid).trans (Function.update_self ..), ?_, ?_, fun i => ?_⟩
        · rw [← hfile]
          split <;> rfl
        · rw [← hsize, add_zero]
          split_ifs with hgrow
          · exact (max_eq_right hgrow.le).symm
          exact (max_eq_left (not_lt.mp hgrow)).symm
        · rw [← hpage i]
          split <;> rfl
      next => cases h

/-! ## A failed write on disk -/

section Disk

variable {v v' : Volume} {ino : ℕ}

/-- The block of a file lies on the way to another one only if it is that one. -/
lemma eq_of_mem_pathOf {j k : ℕ} {p q : Slot} (hp : Slot.ofIndex j = some p)
    (hq : Slot.ofIndex k = some q) (hmem : p ∈ Slot.pathOf k) : p = q := by
  rw [Slot.pathOf_eq hq] at hmem
  have htable := Slot.ofIndex_not_isTable hp
  cases q with
  | direct | indirect | double => exact List.mem_singleton.mp hmem
  | single | middle =>
    rcases List.mem_pair.mp hmem with rfl | heq
    · exact absurd trivial htable
    · exact heq
  | leaf =>
    rcases List.mem_cons.mp hmem with rfl | hmem
    · exact absurd trivial htable
    · rcases List.mem_pair.mp hmem with rfl | heq
      · exact absurd trivial htable
      · exact heq

/-- What is the same to a reader: the size, the blocks and their bytes. -/
structure Alike (v v' : Volume) (ino : ℕ) : Prop where
  healthy : Healthy v'
  consistent : v'.view.Consistent
  live : v'.view.Live ino
  slot_eq : ∀ k p, Slot.ofIndex k = some p → v'.view.slot ino p = v.view.slot ino p
  contents_eq : v'.view.contents ino = v.view.contents ino

section

variable (hv : Healthy v) (hc : v.view.Consistent) (hi : v.view.Live ino)

include hv hc hi

/-- Without space for a byte the file has its blocks and bytes, and its size may have grown. -/
theorem writeFile_nospace (h : writeFile v ino off buf len = (.error .ENOSPC, v')) :
    Alike v v' ino ∧
      (v'.view.inodes ino).size = max (v.view.inodes ino).size (off % 4294967296) := by
  obtain ⟨r, v1, hrun, hframe, htouch, hres⟩ := writeFile_spec hv hc hi off buf len
  obtain ⟨rfl, rfl⟩ := Prod.mk.inj (h.symm.trans hrun)
  rcases hres with ⟨herr, -⟩ | ⟨hfits, done, hwritten⟩
  · cases herr
  have hzero : done = 0 ∧ 0 < len := by
    by_contra hnot
    cases hwritten.ok hnot
  obtain ⟨rfl, hlen⟩ := hzero
  have hsize := hwritten.size_eq
  rw [add_zero] at hsize
  -- the first block could not be mapped
  have hcannot : ¬ v.view.CanMap ino (off % 4294967296 / 1024) := fun hcan =>
    absurd ((hwritten.started hlen).iff.mpr hcan) (lt_irrefl 0)
  have hm0 := readState_view v ino
  have h₀ := readState_mapping hv hc hi
  obtain ⟨r, m, hbmap, hmaps, hr⟩ := bmap_alloc h₀ (off % 4294967296 / 1024)
  have hgrows := hmaps.grows
  rw [hm0] at hgrows
  cases r with
  | ok b => exact absurd (hm0 ▸ (bmap_ok_iff h₀ hmaps hr).mp ⟨b, rfl⟩) hcannot
  | error e =>
    have hloop : writeLoop off buf len len (readState v ino) 0 = (.stopped e, m, 0) := by
      obtain ⟨fuel, rfl⟩ := Nat.exists_eq_add_of_lt hlen
      rw [zero_add, writeLoop, if_neg (by omega)]
      dsimp only
      rw [add_zero, hbmap]
    obtain ⟨v1, mtime, hfinish, -, hview⟩ := writeFinish_spec hmaps.kept off len 0 (some e)
    rw [writeFile, readInode_ok hv hi.1] at h
    dsimp only at h
    rw [readState] at hloop
    rw [if_neg (not_lt.mpr hfits), hloop] at h
    dsimp only at h
    rw [hfinish, if_pos ⟨rfl, hlen⟩] at h
    obtain ⟨hcode, rfl⟩ := Prod.mk.inj h
    obtain rfl : e = .ENOSPC := Except.error.inj hcode
    have hself : (m.view ino).inodes ino = m.inode := View.setInode_inodes_self ..
    rw [← hself] at hview
    refine ⟨⟨hv.of_frame hframe, htouch.consistent, (htouch.live_iff ino).mpr hi, fun k p hp => ?_,
      funext fun k => ?_⟩, hsize⟩
    · rw [hview, View.slot_stamp]
      by_cases hmem : p ∈ Slot.pathOf (off % 4294967296 / 1024)
      · -- only the block itself was asked for, and it is missing before and after
        rcases hr with ⟨-, ⟨q, hq, hq0⟩, -⟩ | ⟨herr, -⟩
        · obtain rfl := eq_of_mem_pathOf hp hq hmem
          by_contra hne
          have hkept := (hgrows.touches hc).slot_kept p fun h0 => hne (hq0.trans h0.symm)
          exact hne hkept
        · cases herr
      · exact hgrows.slot_eq_of_notMem hmem
    · rw [View.contents, View.contents, hview, View.byteAt_stamp]
      exact hgrows.byteAt_eq hc hi k

/-- Two volumes that are alike are read alike. -/
lemma readLoop_congr (h : Alike v v' ino) (off len fuel done : ℕ) :
    readLoop (readState v' ino) off len fuel done =
      readLoop (readState v ino) off len fuel done := by
  have hbmap : ∀ index, (bmap (readState v' ino) index false).1 =
      (bmap (readState v ino) index false).1 := by
    intro index
    rw [bmap_readState h.healthy h.consistent h.live, bmap_readState hv hc hi]
    cases hp : Slot.ofIndex index with
    | none => rfl
    | some p => exact congrArg Except.ok (h.slot_eq index p hp)
  have hrun : ∀ index block left fuel run, runLength (readState v' ino) index block left fuel run =
      runLength (readState v ino) index block left fuel run := by
    intro index block left fuel
    induction fuel with
    | zero => exact fun run => rfl
    | succ fuel ih =>
      intro run
      simp only [runLength, hbmap, ih]
  induction fuel generalizing done with
  | zero => rfl
  | succ fuel ih =>
    by_cases hle : len ≤ done
    · rw [readLoop, readLoop, if_pos hle, if_pos hle]
    cases hp : Slot.ofIndex ((off + done) % 4294967296 / 1024) with
    | none =>
      rw [readLoop, readLoop, if_neg hle, if_neg hle]
      dsimp only
      rw [hbmap, bmap_readState hv hc hi, hp]
    | some p =>
      obtain ⟨-, -, hturn⟩ := readLoop_turn hv hc hi fuel rfl hle hp
      obtain ⟨-, -, hturn'⟩ := readLoop_turn h.healthy h.consistent h.live fuel rfl hle hp
      have hstride : readStride v' ino p = readStride v ino p := by
        funext pos left
        rw [readStride, readStride, h.slot_eq _ p hp, hrun]
      rw [hturn, hturn', hstride, h.contents_eq, ih]

lemma readFile_congr (h : Alike v v' ino)
    (hsize : (v'.view.inodes ino).size = (v.view.inodes ino).size) (off len : ℕ) :
    readFile v' ino off len = readFile v ino off len := by
  rw [readFile, readFile, readInode_ok hv hi.1, readInode_ok h.healthy h.live.1]
  dsimp only
  rw [hsize]
  split
  · rfl
  · exact readLoop_congr hv hc hi h _ _ _ _

end

end Disk

/-! ## Both filesystems -/

/-- A write for which there is no space keeps the size and everything a reader sees if and only if
it starts within the file or at its end. -/
theorem failed_write_keeps_iff (ino off : ℕ) (hoff : off < 4294967296) (buf : Buf) (len : ℕ) :
    (∀ v v' : Volume, Healthy v → v.view.Consistent → v.view.Live ino →
      writeFile v ino off buf len = (.error .ENOSPC, v') →
      (((v'.view.inodes ino).size = (v.view.inodes ino).size ∧
          ∀ off' len', readFile v' ino off' len' = readFile v ino off' len') ↔
        off ≤ (v.view.inodes ino).size)) ∧
    ∀ (memory : ℕ → Bool) (s s' : Ram),
      ramfsWrite memory s ino off buf len = (.error .ENOSPC, s') →
      (((nodeOf s' ino).map Node.size = (nodeOf s ino).map Node.size ∧
          ∀ off' len', ramfsRead s' ino off' len' = ramfsRead s ino off' len') ↔
        ∃ n, nodeOf s ino = some n ∧ off ≤ n.size) := by
  constructor
  · intro v v' hv hc hi h
    obtain ⟨halike, hsize⟩ := writeFile_nospace hv hc hi h
    rw [mod_eq_of_lt hoff] at hsize
    constructor
    · rintro ⟨hsame, -⟩
      omega
    · intro hle
      have hsame := hsize.trans (max_eq_left hle)
      exact ⟨hsame, readFile_congr hv hc hi halike hsame⟩
  · intro memory s s' h
    obtain ⟨n, n', hn, hn', hfile, hsize, hpage⟩ := ramfsWrite_nospace h
    rw [mod_eq_of_lt hoff] at hsize
    rw [hn, hn']
    constructor
    · rintro ⟨hsame, -⟩
      have hsame : n'.size = n.size := Option.some.inj hsame
      exact ⟨n, rfl, by omega⟩
    rintro ⟨m, hm, hle⟩
    obtain rfl := Option.some.inj hm
    have hsame := hsize.trans (max_eq_left hle)
    refine ⟨congrArg some hsame, fun off' len' => ?_⟩
    rw [ramfsRead, ramfsRead, hn, hn']
    dsimp only
    rw [hfile, hsame]
    simp only [ramReadLoop_congr hpage]

/-- An empty file, in a filesystem with nothing else. -/
def emptyFile : Ram := ⟨Function.update (fun _ => none) 2 (some ⟨true, 0, 0, fun _ => none⟩), 0⟩

/-- A write at its start that finds no memory leaves it empty. -/
theorem emptyFile_kept : (ramfsWrite (fun _ => false) emptyFile 2 0 Buf.zero 1).1 = .error .ENOSPC ∧
    ∀ off len, ramfsRead (ramfsWrite (fun _ => false) emptyFile 2 0 Buf.zero 1).2 2 off len =
      ramfsRead emptyFile 2 off len := by
  refine ⟨rfl, fun off len => ?_⟩
  have hkept := (failed_write_keeps_iff 2 0 (by decide) Buf.zero 1).2
    (fun _ => false) emptyFile _ rfl
  exact (hkept.mpr ⟨_, rfl, le_rfl⟩).2 off len

/-- One at offset 5 leaves five bytes of zeroes. -/
theorem emptyFile_grown :
    (ramfsWrite (fun _ => false) emptyFile 2 5 Buf.zero 1).1 = .error .ENOSPC ∧
    ramfsRead emptyFile 2 0 9 = .ok [] ∧
    ramfsRead (ramfsWrite (fun _ => false) emptyFile 2 5 Buf.zero 1).2 2 0 9 =
      .ok [0, 0, 0, 0, 0] :=
  ⟨rfl, rfl, rfl⟩

end Wos.Ramfs
