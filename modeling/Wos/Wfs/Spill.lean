import Wos.Wfs.ByteArrays
import Wos.Wfs.Runs

/-!
# Entries written into files

`wfs_create` and `wfs_rename` look the new name up with `dir_find`, which refuses a parent that is
not a directory; but they take any error of it to mean that the name is free, and `dir_add` then
writes the entry into whatever the parent is. This module says exactly when that happens: when the
parent of the target is a regular file, the call gets as far as `dir_add`, and there is room for an
entry in the file.

## Main definitions

* `NameCall`: the calls that change the namespace;
* `SameFile`: a regular file is what it was;
* `HasRoom`: `dir_add` can store at least a byte of an entry;
* `NameCall.KeepsFiles`: new names are made in directories and no other file changes;
* `NameCall.Spills`: the calls for which it fails.

## Main results

* `dirAdd_file`: what `dir_add` does to a file;
* `keepsFiles_iff`: a call keeps the files exactly when it does not spill.
-/

namespace Wos.Wfs

open Option Except

/-! ## Files -/

/-- Inode `i` is still in use, with the type, the size and the contents it had. -/
structure SameFile (c c' : View) (i : ℕ) : Prop where
  live : c'.Live i
  type_eq : (c'.inodes i).type = (c.inodes i).type
  size_eq : (c'.inodes i).size = (c.inodes i).size
  byteAt_eq : ∀ k < (c.inodes i).size, c'.byteAt i k = c.byteAt i k

variable {i : ℕ}

lemma Agree.sameFile {c c' : View} (h : Agree c c' i) (hl : c'.Live i) : SameFile c c' i :=
  ⟨hl, h.type_eq, h.size_eq, fun k _ => h.byteAt_eq k⟩

lemma SameFile.of_agree {c c1 c' : View} (h : SameFile c c' i) (ha : Agree c c1 i) :
    SameFile c1 c' i := by
  refine ⟨h.live, h.type_eq.trans ha.type_eq.symm, h.size_eq.trans ha.size_eq.symm, fun k hk => ?_⟩
  rw [ha.size_eq] at hk
  rw [h.byteAt_eq k hk, ha.byteAt_eq k]

/-- A change of the file is not undone by steps that leave it alone. -/
lemma Agree.not_sameFile {c c1 c' : View} (h : Agree c1 c' i) (hl : c1.Live i)
    (hne : ¬ SameFile c c1 i) : ¬ SameFile c c' i := by
  intro hs
  refine hne ⟨hl, h.type_eq.symm.trans hs.type_eq, h.size_eq.symm.trans hs.size_eq, fun k hk => ?_⟩
  rw [← h.byteAt_eq k, hs.byteAt_eq k hk]

/-! ## `dir_add` on a file -/

/-- There is room for an entry in file `i` besides `extra` blocks that are taken before: the slot
`dir_add` chooses lies within the largest file, and the free blocks cover what is missing on the
way to its block. -/
def HasRoom (v : Volume) (i extra : ℕ) : Prop :=
  freeSlot v i (v.view.inodes i).size + 32 ≤ maxFileSize ∧
    ∃ p, Slot.ofIndex (freeSlot v i (v.view.inodes i).size / 1024) = some p ∧
      v.view.missing i p.path + extra ≤ v.view.freeBlocks

variable {name : Name}

section FileEntry

variable {v : Volume} (hv : Healthy v) (hc : v.view.Consistent) {f : ℕ} (hl : v.view.Live f)
  (hle : (v.view.inodes f).size ≤ maxFileSize)

include hv hc hl hle

/-- What the loop over the entries of any file finds lies before the end, and is read from the file
if it does not reach beyond it. -/
lemma dirScan_sound (hit : Dirent → Bool) (fuel : ℕ) {off : ℕ} (hoff : off % 32 = 0) (ent : Buf)
    {pos : ℕ} {e : Dirent}
    (h : dirScan v f (v.view.inodes f).size hit fuel off ent = some (pos, e)) :
    pos % 32 = 0 ∧ pos < (v.view.inodes f).size ∧ hit e = true ∧
      (pos + 32 ≤ (v.view.inodes f).size → e = Dirent.decode ((v.view.contents f).drop pos)) := by
  have hmax := maxFileSize_eq
  induction fuel generalizing off ent with
  | zero => cases h
  | succ fuel ih =>
    rw [dirScan] at h
    split_ifs at h with hlt
    rw [readFile_spec hv hc hl hle (by omega)] at h
    dsimp only at h
    split at h
    next => cases h
    next =>
      split at h
      next hhit =>
        obtain ⟨rfl, rfl⟩ := Prod.mk.inj (some.inj h)
        refine ⟨hoff, Nat.not_le.mp hlt, hhit, fun hin => Dirent.decode_congr fun k hk => ?_⟩
        rw [show min 32 ((v.view.inodes f).size - off) = 32 by omega, Buf.length_slice,
          Buf.copy_apply_of_lt (Nat.zero_le k) (by omega), Nat.sub_zero, Buf.ofList_slice hk]
        rfl
      next => exact ih (by omega) _ h

/-- The slot `dir_add` takes in a file is its end, or what reads as a free entry. -/
lemma freeSlot_file :
    freeSlot v f (v.view.inodes f).size = (v.view.inodes f).size ∨
      (freeSlot v f (v.view.inodes f).size % 32 = 0 ∧
        freeSlot v f (v.view.inodes f).size < (v.view.inodes f).size ∧
        (freeSlot v f (v.view.inodes f).size + 32 ≤ (v.view.inodes f).size →
          ((v.view.contents f).drop (freeSlot v f (v.view.inodes f).size)).word 0 = 0)) := by
  rw [freeSlot, dirSearch]
  split
  next => exact .inl rfl
  next pos e hfind =>
    obtain ⟨hmod, hlt, hhit, hread⟩ := dirScan_sound hv hc hl hle _ _ rfl _ hfind
    refine .inr ⟨hmod, hlt, fun hin => ?_⟩
    have hzero : e.ino = 0 := by simpa using hhit
    rw [hread hin] at hzero
    exact hzero

/-- The slot depends on the file only. -/
lemma freeSlot_congr {v' : Volume} (hframe : v'.frame = v.frame) (hc' : v'.view.Consistent)
    (hl' : v'.view.Live f) (h : Agree v.view v'.view f) :
    freeSlot v' f (v'.view.inodes f).size = freeSlot v f (v.view.inodes f).size := by
  have hmax := maxFileSize_eq
  have hbytes : v'.view.contents f = v.view.contents f := funext h.byteAt_eq
  -- both loops read the same bytes
  have hscan : ∀ hit fuel off ent,
      dirScan v' f (v.view.inodes f).size hit fuel off ent =
        dirScan v f (v.view.inodes f).size hit fuel off ent := by
    intro hit fuel
    induction fuel with
    | zero => exact fun _ _ => rfl
    | succ fuel ih =>
      intro off ent
      rw [dirScan, dirScan]
      by_cases hend : (v.view.inodes f).size ≤ off
      · rw [if_pos hend, if_pos hend]
      rw [if_neg hend, if_neg hend, readFile_spec hv hc hl hle (by omega),
        readFile_spec (hv.of_frame hframe) hc' hl' (by rwa [h.size_eq]) (by omega), hbytes,
        h.size_eq]
      simp only [ih]
  rw [freeSlot, freeSlot, dirSearch, dirSearch, (Volume.frame_eq hframe).2.1, h.size_eq, hscan]

/-- `dir_add` to a file stores a part of the entry and so changes the file, or fails. -/
theorem dirAdd_file {ino : ℕ} (hfits : Dirent.Fits ⟨ino, name⟩) (hino : ino ≠ 0) :
    ∃ r v', dirAdd v f name ino = (r, v') ∧ v'.frame = v.frame ∧ Touches f v.view v'.view ∧
      ((HasRoom v f 0 ∧ ¬ SameFile v.view v'.view f) ∨
        (¬ HasRoom v f 0 ∧ (∃ e, r = .error e) ∧ Agree v.view v'.view f)) := by
  have hmax := maxFileSize_eq
  have hslot := freeSlot_file hv hc hl hle
  have hlen : name.length ≤ nameMax := hfits.name_length
  rw [dirAdd, if_neg (Nat.not_lt.mpr hlen), readInode_ok hv hl.1]
  dsimp only
  unfold HasRoom
  generalize freeSlot v f (v.view.inodes f).size = slot at hslot ⊢
  have hmod : slot % 4294967296 = slot := Nat.mod_eq_of_lt (by omega)
  obtain ⟨r, v', hwrite, hframe, htouch, ⟨rfl, rfl, hbig⟩ | ⟨hsmall, done, hw⟩⟩ :=
    writeFile_spec hv hc hl slot (Dirent.encode ⟨ino, name⟩) 32
  · rw [hwrite]
    refine ⟨_, v', rfl, rfl, htouch, .inr ⟨fun hroom => ?_, ⟨_, rfl⟩, .refl _ f⟩⟩
    omega
  rw [Nat.mod_eq_of_lt (show slot + 32 < 4294967296 by omega)] at hsmall
  have hdone := hw.le
  have hstart := hw.started (by norm_num)
  rw [hmod] at hstart
  have hstored := hw.stored (by omega)
  have hsize := hw.size_eq
  rw [Nat.mod_eq_of_lt (show slot + done < 4294967296 by omega)] at hsize
  by_cases hpos : 0 < done
  · have hchanged : ¬ SameFile v.view v'.view f := by
      intro hsame
      have hsame' := hsame.size_eq
      rcases hslot with hend | ⟨haligned, hbefore, hzero⟩
      · omega
      -- an aligned entry lies in one block, so all of it was stored
      have hall : done = 32 := by
        refine Decidable.byContradiction fun hne => ?_
        obtain ⟨p, hp, hp0⟩ := hstored.blocks slot (by omega) (by omega)
        have hindex : (slot + done) % 4294967296 / 1024 = slot / 1024 := by omega
        have hshort := hw.short (by omega)
        rw [hindex, hp] at hshort
        rcases hshort with hnone | ⟨q, hq, hq0, -⟩
        · cases hnone
        · exact hp0 (some.inj hq ▸ hq0)
      subst hall
      have hin : slot + 32 ≤ (v.view.inodes f).size := by omega
      -- the inode number that was free is not free now
      have hword : ((v.view.contents f).drop slot).word 0 = (Dirent.encode ⟨ino, name⟩).word 0 := by
        refine Buf.word_congr fun k hk => ?_
        rw [Buf.drop_apply, View.contents, ← hsame.byteAt_eq _ (by omega), hstored.bytes,
          if_pos (by omega)]
        congr 1
        omega
      have henc : (Dirent.encode ⟨ino, name⟩).word 0 = ino :=
        congrArg Dirent.ino (Dirent.decode_encode hfits)
      exact hino (henc.symm.trans (hword.symm.trans (hzero hin)))
    rw [hwrite]
    cases r <;> exact ⟨_, v', rfl, hframe, htouch, Or.inl ⟨⟨hsmall, hstart.iff.mp hpos⟩, hchanged⟩⟩
  · obtain rfl : done = 0 := Nat.eq_zero_of_not_pos hpos
    obtain ⟨e, rfl⟩ := hw.error rfl (by norm_num)
    rw [hwrite]
    refine ⟨_, v', rfl, hframe, htouch, .inr ⟨fun hroom => hpos (hstart.iff.mpr hroom.2),
      ⟨e, rfl⟩, htouch.type_eq, ?_, fun k => ?_, fun p hp => ?_⟩⟩
    · omega
    · rw [hstored.bytes, if_neg (by omega)]
    · rwa [htouch.slot_kept p hp]

end FileEntry

/-! ## The calls -/

/-- The calls that change the namespace. -/
inductive NameCall
  | create (path : CString) (type : FileType)
  | unlink (path : CString)
  | rename (fromPath toPath : CString)

namespace NameCall

/-- What a call returns, the number of a new inode left out, and the volume after it. -/
def exec (v : Volume) : NameCall → Except Errno Unit × Volume
  | create path type =>
    let (r, v') := Wfs.create v path.1 type
    (r.map fun _ => (), v')
  | unlink path => Wfs.unlink v path.1
  | rename fromPath toPath => Wfs.rename v fromPath.1 toPath.1

/-- The path that is to be a new name. -/
def target : NameCall → Option CString
  | create path _ => some path
  | unlink _ => none
  | rename _ toPath => some toPath

/-- The call is asked to remove or to replace inode `i`. -/
def Drops (v : Volume) (i : ℕ) : NameCall → Prop
  | create _ _ => False
  | unlink path => lookup v path.1 = .ok i
  | rename _ toPath => lookup v toPath.1 = .ok i

/-- New names are made in directories only, and no regular file changes but the one that is removed
or replaced. -/
structure KeepsFiles (v : Volume) (call : NameCall) : Prop where
  inDir : ∀ path, call.target = some path → (call.exec v).1 = .ok () →
    ∃ d name, resolveParent v path.1 = .ok (d, name) ∧ v.view.IsDir d
  files : ∀ i, v.view.Live i → ¬ v.view.IsDir i →
    (call.Drops v i ∧ ¬ (call.exec v).2.view.Live i) ∨ SameFile v.view (call.exec v).2.view i

/-- The call comes to write an entry into a regular file. -/
def Spills (v : Volume) : NameCall → Prop
  | create path type => ∃ f name, resolveParent v path.1 = .ok (f, name) ∧ ¬ v.view.IsDir f ∧
      (∃ i, v.view.Valid i ∧ ¬ v.view.Live i) ∧ HasRoom v f type.ownBlocks
  | unlink _ => False
  | rename fromPath toPath => ∃ d name f name' i, resolveParent v fromPath.1 = .ok (d, name) ∧
      resolveParent v toPath.1 = .ok (f, name') ∧ ¬ v.view.IsDir f ∧ Plain name ∧ Plain name' ∧
      dirFind v d name = .ok i ∧ HasRoom v f 0

end NameCall

section Calls

variable {v : Volume} (h : Intact v) {path : CString}

include h

/-- What a name leads to is found by looking its path up. -/
lemma lookup_eq_of_entry {d : ℕ} (hres : resolveParent v path.1 = .ok (d, name))
    (hd : v.view.names.Reached d)
    (hname : v.view.names.entry d name = some i) : lookup v path.1 = .ok i := by
  obtain ⟨hv, hc, hs⟩ := h
  have hdir := hs.tree.dir_of_reached hd
  rw [lookup_of_resolveParent hv hres,
    dirFind_spec hv hc (View.names_dir_live hdir) (hs.dirOk d hd) hdir.2,
    (View.names_entry_eq_some hname).2.2]

/-- `wfs_create` leaves every regular file alone but the parent of the new name. -/
lemma create_sameFile (path : CString) (type : FileType) (hi : v.view.Live i)
    (hfile : ¬ v.view.IsDir i) (hne : ∀ d name, resolveParent v path.1 = .ok (d, name) → i ≠ d) :
    SameFile v.view (create v path.1 type).2.view i := by
  obtain ⟨r, v', heq, hres⟩ := create_spec h.healthy h.consistent h.sound path type
  rw [heq]
  cases hres with
  | refused => exact (Agree.refl _ i).sameFile hi
  | undone _ hpath _ hshows =>
    exact (hshows.file i hi hfile (hne _ _ hpath)).sameFile ((hshows.live_iff i).mpr hi)
  | created hpath _ hcr _ =>
    exact (hcr.extends_.file i hi hfile (hne _ _ hpath)).sameFile
      ((hcr.extends_.live_iff i).mpr (.inl hi))

/-- `wfs_unlink` leaves every regular file alone but the one it removes. -/
lemma unlink_keepsFile (path : CString) (hi : v.view.Live i) (hfile : ¬ v.view.IsDir i) :
    (lookup v path.1 = .ok i ∧ ¬ (unlink v path.1).2.view.Live i) ∨
      SameFile v.view (unlink v path.1).2.view i := by
  obtain ⟨r, v', heq, hres⟩ := unlink_spec h.healthy h.consistent h.sound path
  rw [heq]
  cases hres with
  | refused => exact .inr ((Agree.refl _ i).sameFile hi)
  | @removed _ d name x hpath _ hrem =>
    by_cases hix : i = x
    · subst hix
      refine .inl ⟨lookup_eq_of_entry h hpath hrem.removes.reached hrem.removes.named, ?_⟩
      exact fun hl => ((hrem.removes.live_iff i).mp hl).2 rfl
    · exact .inr ((hrem.file i hi hfile hix).sameFile ((hrem.removes.live_iff i).mpr ⟨hi, hix⟩))

variable {f : ℕ} {toPath : CString} {call : NameCall}

/-- Making room for the new name leaves every regular file alone but the one in the way. -/
lemma Displaced.keepsFile {m d' : ℕ} {k' : Name} {v1 : Volume} (hd : Displaced v m d' k' v1)
    (hto : resolveParent v toPath.1 = .ok (d', k')) (hi : v.view.Live i)
    (hfile : ¬ v.view.IsDir i) :
    (lookup v toPath.1 = .ok i ∧ ¬ v1.view.Live i) ∨
      (v1.view.Live i ∧ ¬ v1.view.IsDir i ∧ Agree v.view v1.view i) := by
  cases hd with
  | free => exact .inr ⟨hi, hfile, .refl _ i⟩
  | @file _ x _ _ _ hrem =>
    by_cases hix : i = x
    · subst hix
      refine .inl ⟨lookup_eq_of_entry h hto hrem.removes.reached hrem.removes.named, ?_⟩
      exact fun hl => ((hrem.removes.live_iff i).mp hl).2 rfl
    · exact .inr ⟨(hrem.removes.live_iff i).mpr ⟨hi, hix⟩,
        fun hd => hfile ((hrem.removes.dir_iff i).mp hd).1, hrem.file i hi hfile hix⟩

/-- `wfs_rename` leaves every regular file alone but the one it replaces and the parent of the new
name. -/
lemma rename_keepsFile (fromPath toPath : CString) (hi : v.view.Live i) (hfile : ¬ v.view.IsDir i)
    (hne : ∀ d name, resolveParent v toPath.1 = .ok (d, name) → i ≠ d) :
    (lookup v toPath.1 = .ok i ∧ ¬ (rename v fromPath.1 toPath.1).2.view.Live i) ∨
      SameFile v.view (rename v fromPath.1 toPath.1).2.view i := by
  obtain ⟨r, v', heq, hres⟩ := rename_spec h.healthy h.consistent h.sound fromPath toPath
  rw [heq]
  -- both ways on from the displaced file change names only
  have hgo : ∀ {v1 : Volume} {m d' : ℕ} {k' : Name} {g : ℕ → Name → Option ℕ},
      resolveParent v toPath.1 = .ok (d', k') → Displaced v m d' k' v1 →
      Shows v1.view v'.view d' g →
      (lookup v toPath.1 = .ok i ∧ ¬ v'.view.Live i) ∨ SameFile v.view v'.view i := by
    intro v1 m d' k' g hto hd hshows
    rcases hd.keepsFile h hto hi hfile with ⟨hlook, hgone⟩ | ⟨hi1, hfile1, hagree⟩
    · exact .inl ⟨hlook, fun hl => hgone ((hshows.live_iff i).mp hl)⟩
    · exact .inr ((hagree.trans (hshows.file i hi1 hfile1 (hne _ _ hto))).sameFile
        ((hshows.live_iff i).mpr hi1))
  cases hres with
  | refused | idle => exact .inr ((Agree.refl _ i).sameFile hi)
  | failed _ _ hto _ hd _ hshows => exact hgo hto hd hshows
  | moved _ hto _ hd _ hmv _ => exact hgo hto hd hmv.shows_

/-- A new name is made only where its path has a parent. -/
lemma resolveParent_of_exec_ok (ht : call.target = some path)
    (hok : (call.exec v).1 = .ok ()) : ∃ d name, resolveParent v path.1 = .ok (d, name) := by
  cases call with
  | create p type =>
    obtain rfl := some.inj ht
    obtain ⟨r, v', heq, hres⟩ := create_spec h.healthy h.consistent h.sound p type
    rw [NameCall.exec, heq] at hok
    cases hres with
    | refused | undone => cases hok
    | created hpath => exact ⟨_, _, hpath⟩
  | unlink p => cases ht
  | rename fromPath p =>
    obtain rfl := some.inj ht
    obtain ⟨r, v', heq, hres⟩ := rename_spec h.healthy h.consistent h.sound fromPath p
    rw [NameCall.exec, heq] at hok
    cases hres with
    | refused | failed => cases hok
    | idle hto => exact ⟨_, _, hto⟩
    | moved _ hto => exact ⟨_, _, hto⟩

/-- Every call keeps all regular files but the parent of the new name. -/
lemma exec_keepsFile (call : NameCall) (hi : v.view.Live i) (hfile : ¬ v.view.IsDir i)
    (hne : ∀ path d name, call.target = some path →
      resolveParent v path.1 = .ok (d, name) → i ≠ d) :
    (call.Drops v i ∧ ¬ (call.exec v).2.view.Live i) ∨ SameFile v.view (call.exec v).2.view i := by
  cases call with
  | create path type =>
    exact .inr (create_sameFile h path type hi hfile fun d name => hne path d name rfl)
  | unlink path => exact unlink_keepsFile h path hi hfile
  | rename fromPath toPath =>
    exact rename_keepsFile h fromPath toPath hi hfile fun d name => hne toPath d name rfl

variable (hsizes : v.view.SizesFit)

include hsizes

/-- `wfs_create` under a regular file either spills into it or fails and leaves it alone. -/
lemma create_under_file (type : FileType) (hres : resolveParent v path.1 = .ok (f, name))
    (hf : ¬ v.view.IsDir f) :
    ∃ r v', create v path.1 type = (r, v') ∧
      ((NameCall.Spills v (.create path type) ∧ ¬ SameFile v.view v'.view f) ∨
        (¬ NameCall.Spills v (.create path type) ∧ (∃ e, r = .error e) ∧
          SameFile v.view v'.view f)) := by
  obtain ⟨hv, hc, hs⟩ := h
  obtain ⟨hat, -, hlen, hbytes, -⟩ := resolveParent_spec hv hc hs hres
  have hl := hat.live
  have hspills : NameCall.Spills v (.create path type) ↔
      (∃ i, v.view.Valid i ∧ ¬ v.view.Live i) ∧ HasRoom v f type.ownBlocks := by
    constructor
    · rintro ⟨f', name', hres', -, hroom⟩
      rw [hres] at hres'
      obtain ⟨rfl, rfl⟩ := Prod.mk.inj (ok.inj hres')
      exact hroom
    · exact fun hroom => ⟨f, name, hres, hf, hroom⟩
  have htype : type.code < 65536 ∧ type.code ≠ typeFree := by cases type <;> decide
  rw [hspills, create, if_neg (by simp [hv.mounted]), hres]
  dsimp only
  -- `dir_find` refuses the file, and its error is taken for a free name
  rw [dirFind_notDir hv hl fun ht => hf ⟨hl.1, ht⟩]
  rcases inodeAlloc_allocs hv hc htype.1 htype.2 with ⟨halloc, hall⟩ | ⟨i, v1, halloc, hframe1, ha⟩
  · rw [halloc]
    refine ⟨_, _, rfl, .inr ⟨?_, ⟨_, rfl⟩, (Agree.refl _ f).sameFile hl⟩⟩
    rintro ⟨⟨i, hi, hnot⟩, -⟩
    exact hnot (hall i hi)
  have hfree : ∃ i, v.view.Valid i ∧ ¬ v.view.Live i := ⟨i, ha.valid, ha.fresh⟩
  obtain ⟨r2, v2, hnew, hframe2, hextends, -, hslots, hcase⟩ := newNode_spec hv hframe1 ha hl
  have hext := hextends 0
  have hne := hext.ne_of_live hl
  have hi : v2.view.Live i := (hext.live_iff i).mpr (.inr rfl)
  have hl2 : v2.view.Live f := (hext.live_iff f).mpr (.inl hl)
  have hagree : Agree v.view v2.view f := hext.file f hl hf hl.1.1.ne'
  rw [halloc]
  dsimp only
  rw [hnew]
  rcases hcase with ⟨rfl, -, hcost⟩ | ⟨⟨e, rfl⟩, hbare, hcost⟩
  · -- what the new node has taken is missing for the entry
    have hroom : HasRoom v2 f 0 ↔ HasRoom v f type.ownBlocks := by
      have hmissing : ∀ l, v2.view.missing f l = v.view.missing f l := fun l => by
        simp only [View.missing, hslots f _ hl]
      simp only [HasRoom, hmissing,
        freeSlot_congr hv hc hl (hsizes f hl) hframe2 hext.consistent hl2 hagree]
      refine and_congr_right fun _ => exists_congr fun p => and_congr_right fun _ => ?_
      omega
    obtain ⟨r3, v3, hadd, hframe3, htouch, hcase⟩ := dirAdd_file (hv.of_frame hframe2)
      hext.consistent hl2 (by rw [hagree.size_eq]; exact hsizes f hl)
      (show Dirent.Fits ⟨i, name⟩ from ⟨hi.lt hext.consistent, hlen, hbytes⟩) hi.1.1.ne'
    have hl3 := (htouch.live_iff f).mpr hl2
    obtain ⟨-, hfrees⟩ := release_frees ((hv.of_frame hframe2).of_frame hframe3)
      htouch.consistent ((htouch.live_iff i).mpr hi)
    have hagree4 := hfrees.agree f hne
    dsimp only
    rw [hadd]
    rw [hroom] at hcase
    rcases hcase with ⟨hspill, hchanged⟩ | ⟨hnot, ⟨e, rfl⟩, hsame⟩
    · have hchanged' : ¬ SameFile v.view v3.view f := fun hs => hchanged (hs.of_agree hagree)
      cases r3 with
      | ok => exact ⟨_, _, rfl, .inl ⟨⟨hfree, hspill⟩, hchanged'⟩⟩
      | error e =>
        -- a part of the entry is enough, and the release of the new inode leaves it there
        exact ⟨_, _, rfl, .inl ⟨⟨hfree, hspill⟩, hagree4.not_sameFile hl3 hchanged'⟩⟩
    · exact ⟨_, _, rfl, .inr ⟨fun hspill => hnot hspill.2, ⟨e, rfl⟩,
        ((hagree.trans hsame).trans hagree4).sameFile ((hfrees.live_iff f).mpr ⟨hl3, hne⟩)⟩⟩
  · obtain ⟨-, hfrees⟩ := inodeFree_frees (hv.of_frame hframe2) hext.consistent hi hbare
    refine ⟨_, _, rfl, .inr ⟨?_, ⟨e, rfl⟩,
      (hagree.trans (hfrees.agree f hne)).sameFile ((hfrees.live_iff f).mpr ⟨hl2, hne⟩)⟩⟩
    rintro ⟨-, -, p, -, hle⟩
    omega

/-- `wfs_rename` to a name under a regular file either spills into it or fails and leaves it
alone. -/
lemma rename_under_file (fromPath : CString) {name' : Name}
    (hto : resolveParent v toPath.1 = .ok (f, name')) (hf : ¬ v.view.IsDir f) :
    ∃ r v', rename v fromPath.1 toPath.1 = (r, v') ∧
      ((NameCall.Spills v (.rename fromPath toPath) ∧ ¬ SameFile v.view v'.view f) ∨
        (¬ NameCall.Spills v (.rename fromPath toPath) ∧ (∃ e, r = .error e) ∧
          SameFile v.view v'.view f)) := by
  obtain ⟨hv, hc, hs⟩ := h
  obtain ⟨hat, -, hlen, hbytes, -⟩ := resolveParent_spec hv hc hs hto
  have hl := hat.live
  have hsame : SameFile v.view v.view f := (Agree.refl _ f).sameFile hl
  rw [rename, if_neg (by simp [hv.mounted])]
  cases hfrom : resolveParent v fromPath.1 with
  | error e =>
    refine ⟨_, _, rfl, .inr ⟨?_, ⟨e, rfl⟩, hsame⟩⟩
    rintro ⟨d, name, g, n, i, hfrom', -⟩
    rw [hfrom] at hfrom'
    cases hfrom'
  | ok dk =>
    obtain ⟨d, name⟩ := dk
    obtain ⟨hatd, -⟩ := resolveParent_spec hv hc hs hfrom
    have hspills : NameCall.Spills v (.rename fromPath toPath) ↔
        Plain name ∧ Plain name' ∧ (∃ i, dirFind v d name = .ok i) ∧ HasRoom v f 0 := by
      constructor
      · rintro ⟨d', n, g, n', i, hfrom', hto', -, hn, hn', hi, hroom⟩
        rw [hfrom] at hfrom'
        rw [hto] at hto'
        obtain ⟨rfl, rfl⟩ := Prod.mk.inj (ok.inj hfrom')
        obtain ⟨rfl, rfl⟩ := Prod.mk.inj (ok.inj hto')
        exact ⟨hn, hn', ⟨i, hi⟩, hroom⟩
      · rintro ⟨hn, hn', ⟨i, hi⟩, hroom⟩
        exact ⟨d, name, f, name', i, hfrom, hto, hf, hn, hn', hi, hroom⟩
    rw [hspills, hto]
    dsimp only
    by_cases hdots : name = dot ∨ name = dotDot ∨ name' = dot ∨ name' = dotDot
    · rw [if_pos hdots]
      refine ⟨_, _, rfl, .inr ⟨?_, ⟨_, rfl⟩, hsame⟩⟩
      rintro ⟨hn, hn', -⟩
      rcases hdots with hd | hd | hd | hd
      · exact hn.1 hd
      · exact hn.2 hd
      · exact hn'.1 hd
      · exact hn'.2 hd
    · rw [if_neg hdots]
      simp only [not_or] at hdots
      obtain ⟨hk1, hk2, hk'1, hk'2⟩ := hdots
      cases hfind : dirFind v d name with
      | error e =>
        refine ⟨_, _, rfl, .inr ⟨?_, ⟨e, rfl⟩, hsame⟩⟩
        rintro ⟨-, -, ⟨i, hi⟩, -⟩
        cases hi
      | ok m =>
        obtain ⟨hdir, hreach, -, hname, hlive⟩ := dirFind_entry hv hc hs hatd hk1 hk2 hfind
        have hdf : d ≠ f := fun heq => hf (heq ▸ hdir)
        have hnotdir : (v.view.inodes f).type ≠ typeDir := fun ht => hf ⟨hl.1, ht⟩
        -- the walk upwards stops at once: a file has no `..`
        have hloop : ¬ ((v.view.inodes m).type = typeDir ∧ meetsGoingUp v m 256 f = true) := by
          rintro ⟨hm, hmeets⟩
          have hfm : f ≠ m := fun heq => hnotdir (heq ▸ hm)
          have hroot : f ≠ rootIno := fun heq => hf (heq ▸ hs.tree.root_dir)
          rw [meetsGoingUp, if_neg hfm, if_neg hroot, dirFind_notDir hv hl hnotdir] at hmeets
          cases hmeets
        have hdisplace : displace v m f name' = (.ok false, v) := by
          rw [displace, dirFind_notDir hv hl hnotdir]
        have hisDir : decide ((v.view.inodes m).type = typeDir) = true ↔ v.view.names.dir m := by
          rw [decide_eq_true_iff]
          exact (and_iff_right hlive.1).symm
        obtain ⟨r, v', hmove, -, hr, hkept, hmoved⟩ := moveEntry_spec hv hc hs hreach hname hat
          (fun hd => absurd hd hf) hk'1 hk'2 hlen hbytes hisDir
        have hl' : v'.view.Live f := by
          rcases hmoved with ⟨-, hshows⟩ | ⟨-, hmv⟩
          · exact (hshows.live_iff f).mpr hl
          · exact (hmv.shows_.live_iff f).mpr hl
        obtain ⟨r1, v1, hadd, -, htouch, hcase⟩ := dirAdd_file hv hc hl (hsizes f hl)
          (show Dirent.Fits ⟨m, name'⟩ from ⟨hlive.lt hc, hlen, hbytes⟩) hlive.1.1.ne'
        have hl1 := (htouch.live_iff f).mpr hl
        rw [hadd] at hr hkept
        dsimp only
        rw [readInode_ok hv hlive.1]
        dsimp only
        rw [if_neg fun heq => hdf heq.1, if_neg hloop, hdisplace]
        dsimp only
        rw [hmove]
        refine ⟨_, _, rfl, ?_⟩
        rcases hcase with ⟨hroom, hchanged⟩ | ⟨hnot, he, hagree⟩
        · exact .inl ⟨⟨⟨hk1, hk2⟩, ⟨hk'1, hk'2⟩, ⟨m, rfl⟩, hroom⟩,
            (hkept hf).not_sameFile hl1 hchanged⟩
        · exact .inr ⟨fun hsp => hnot hsp.2.2.2, hr ▸ he, (hagree.trans (hkept hf)).sameFile hl'⟩

/-- Under a regular file, a call spills into it or fails and leaves it alone. -/
lemma exec_under_file (ht : call.target = some path)
    (hres : resolveParent v path.1 = .ok (f, name)) (hf : ¬ v.view.IsDir f) :
    (call.Spills v ∧ ¬ call.Drops v f ∧ ¬ SameFile v.view (call.exec v).2.view f) ∨
      (¬ call.Spills v ∧ (∃ e, (call.exec v).1 = .error e) ∧
        SameFile v.view (call.exec v).2.view f) := by
  have hl := (resolveParent_spec h.healthy h.consistent h.sound hres).1.live
  cases call with
  | create p type =>
    obtain rfl := some.inj ht
    obtain ⟨r, v', heq, hcase⟩ := create_under_file h hsizes type hres hf
    rw [NameCall.exec, heq]
    rcases hcase with ⟨hspills, hchanged⟩ | ⟨hnot, ⟨e, rfl⟩, hsame⟩
    · exact .inl ⟨hspills, id, hchanged⟩
    · exact .inr ⟨hnot, ⟨e, rfl⟩, hsame⟩
  | unlink p => cases ht
  | rename fromPath p =>
    obtain rfl := some.inj ht
    obtain ⟨r, v', heq, hcase⟩ := rename_under_file h hsizes fromPath hres hf
    rw [NameCall.exec, heq]
    rcases hcase with ⟨hspills, hchanged⟩ | ⟨hnot, he, hsame⟩
    · -- the path is refused as a name: its parent is no directory
      refine .inl ⟨hspills, fun hdrop => ?_, hchanged⟩
      change lookup v p.1 = .ok f at hdrop
      rw [lookup_of_resolveParent h.healthy hres,
        dirFind_notDir h.healthy hl fun ht => hf ⟨hl.1, ht⟩] at hdrop
      cases hdrop
    · exact .inr ⟨hnot, he, hsame⟩

/-- A call keeps the files, and makes new names in directories only, exactly when it does not come
to write an entry into a file. -/
theorem keepsFiles_iff (call : NameCall) : call.KeepsFiles v ↔ ¬ call.Spills v := by
  by_cases hunder : ∃ path f name, call.target = some path ∧
      resolveParent v path.1 = .ok (f, name) ∧ ¬ v.view.IsDir f
  · obtain ⟨path, f, name, ht, hres, hf⟩ := hunder
    have hl := (resolveParent_spec h.healthy h.consistent h.sound hres).1.live
    rcases exec_under_file h hsizes ht hres hf with
      ⟨hspills, hdrops, hchanged⟩ | ⟨hnot, ⟨e, he⟩, hsame⟩
    · refine iff_of_false (fun hk => ?_) (not_not.mpr hspills)
      rcases hk.files f hl hf with ⟨hdrop, -⟩ | hsame
      · exact hdrops hdrop
      · exact hchanged hsame
    refine iff_of_true ⟨fun p _ hok => ?_, fun i hi hfile => ?_⟩ hnot
    · rw [he] at hok
      cases hok
    by_cases hif : i = f
    · exact .inr (hif ▸ hsame)
    refine exec_keepsFile h call hi hfile fun p d n ht' hres' => ?_
    obtain rfl := mem_unique ht ht'
    rw [hres] at hres'
    obtain ⟨rfl, -⟩ := Prod.mk.inj (ok.inj hres')
    exact hif
  · -- new names are made in a directory, so no file is written to
    have hdir : ∀ path d name, call.target = some path →
        resolveParent v path.1 = .ok (d, name) → v.view.IsDir d := fun path d name ht hres =>
      Classical.not_not.mp fun hd => hunder ⟨path, d, name, ht, hres, hd⟩
    refine iff_of_true ⟨fun path ht hok => ?_, fun i hi hfile => ?_⟩ fun hspills => ?_
    · obtain ⟨d, name, hres⟩ := resolveParent_of_exec_ok h ht hok
      exact ⟨d, name, hres, hdir path d name ht hres⟩
    · refine exec_keepsFile h call hi hfile fun path d name ht hres hid => ?_
      exact hfile (hid ▸ hdir path d name ht hres)
    cases call with
    | create path type =>
      obtain ⟨f, name, hres, hf, -⟩ := hspills
      exact hf (hdir path f name rfl hres)
    | unlink path => exact hspills
    | rename fromPath toPath =>
      obtain ⟨d, name, f, name', i, -, hto, hf, -⟩ := hspills
      exact hf (hdir toPath f name' rfl hto)

end Calls

/-- On the small volume: a file is made in the subdirectory, a file moves into it, and a file is
removed. -/
theorem keepsFiles_sample :
    (NameCall.create ⟨ascii "/d/a", by decide⟩ .file).KeepsFiles Mkwfs.sample ∧
    (NameCall.rename ⟨ascii "/a", by decide⟩ ⟨ascii "/d/a", by decide⟩).KeepsFiles Mkwfs.sample ∧
    (NameCall.unlink ⟨ascii "/a", by decide⟩).KeepsFiles Mkwfs.sample := by
  have hdir : ∀ f name, resolveParent Mkwfs.sample (ascii "/d/a") = .ok (f, name) →
      Mkwfs.sample.view.IsDir f := by
    intro f name hres
    obtain ⟨rfl, -⟩ := Prod.mk.inj (Except.ok.inj (resolveParent_moveA.symm.trans hres))
    exact Mkwfs.sample_isDir
  have hiff := keepsFiles_iff intact_sample sample_sizesFit
  refine ⟨(hiff _).mpr ?_, (hiff _).mpr ?_, (hiff _).mpr id⟩
  · rintro ⟨f, name, hres, hf, -⟩
    exact hf (hdir f name hres)
  · rintro ⟨d, name, f, name', i, -, hres, hf, -⟩
    exact hf (hdir f name' hres)

/-- A file is to be made under `/a`, which is a regular file. -/
def createUnderA : NameCall := .create ⟨ascii "/a/x", by decide⟩ .file

/-- On the small volume the call succeeds, and `/a` has grown by an entry. -/
theorem not_keepsFiles_createUnderA :
    Intact Mkwfs.sample ∧ Mkwfs.sample.view.SizesFit ∧
      lookup Mkwfs.sample (ascii "/a") = .ok 2 ∧ ¬ Mkwfs.sample.view.IsDir 2 ∧
      (createUnderA.exec Mkwfs.sample).1 = .ok () ∧
      (Mkwfs.sample.view.inodes 2).size = 5 ∧
      ((createUnderA.exec Mkwfs.sample).2.view.inodes 2).size = 37 ∧
      ¬ createUnderA.KeepsFiles Mkwfs.sample := by
  have hlook : lookup Mkwfs.sample (ascii "/a") = .ok 2 := by decide +kernel
  have hfile : ¬ Mkwfs.sample.view.IsDir 2 := fun hd => absurd hd.2 (by decide +kernel)
  have hlive : Mkwfs.sample.view.Live 2 := by decide +kernel
  have hold : (Mkwfs.sample.view.inodes 2).size = 5 := by decide +kernel
  have hnew : ((createUnderA.exec Mkwfs.sample).2.view.inodes 2).size = 37 := by decide +kernel
  refine ⟨intact_sample, sample_sizesFit, hlook, hfile, by decide +kernel, hold, hnew, fun hk => ?_⟩
  rcases hk.files 2 hlive hfile with ⟨hdrop, -⟩ | hsame
  · exact hdrop
  · have hsize := hsame.size_eq
    rw [hold, hnew] at hsize
    cases hsize

end Wos.Wfs
