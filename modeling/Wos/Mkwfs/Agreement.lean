import Wos.Mkwfs.Budget
import Wos.Wfs.Listing

/-!
# `mkwfs` and the driver agree

The tool and the driver have an implementation each of the block map, the allocation and the
directories. What one writes the other reads: the volume that the driver mounts from an image holds
the staging directory, every path leads to what it leads to on the host, files read as they were,
and directories list as they were.

That the tool finishes is part of it. It does for every staging directory that fits the volume,
unless that takes more blocks than the tool builds in memory, whatever the size of the volume.

## Main definitions

* `HostNode`, `HostDir.node`: what a path leads to on the host;
* `HostDir.Stored`: the entries of a directory are those of a staging directory;
* `NodeAt`: an inode holds a node of the host;
* `ShownAs`: what the driver's functions return for a node.

## Main results

* `addTree_stored`: the tool stores the staging directory;
* `walk_node`: the driver's walk leads where the path leads on the host;
* `mkwfs_agrees`: the tool finishes, and the driver shows the staging directory.
-/

namespace Wos.Mkwfs

open Wfs Option View

/-! ## Trees on the host and on the volume -/

/-- What a name stands for in a staging directory. -/
inductive HostNode
  | file (data : List UInt8)
  | dir (entries : HostDir)

/-- Its type, as `wfs_readdir` reports it. -/
def HostNode.type : HostNode → ℕ
  | .file _ => typeFile
  | .dir _ => typeDir

namespace HostDir

/-- The entries, in the order `readdir` returns them. -/
def entries : HostDir → List (Name × HostNode)
  | .nil => []
  | .file name data _ rest => (name, .file data) :: rest.entries
  | .dir name sub rest => (name, .dir sub) :: rest.entries

/-- What a name stands for. -/
def get (h : HostDir) (name : Name) : Option HostNode := h.entries.lookup name

/-- What a path leads to. -/
def node (h : HostDir) : List Name → Option HostNode
  | [] => some (.dir h)
  | name :: rest =>
    match h.get name with
    | none => none
    | some (.file data) => if rest = [] then some (.file data) else none
    | some (.dir sub) => sub.node rest

end HostDir

/-- The inode is a file with these contents. -/
structure FileAt (c : View) (i : ℕ) (data : List UInt8) : Prop where
  live : c.Live i
  type_eq : (c.inodes i).type = typeFile
  size_eq : (c.inodes i).size = data.length
  size_le : data.length ≤ maxFileSize
  bytes : ∀ k < data.length, c.byteAt i k = data.getD k 0

/-- The entries are those of the staging directory, in the same order, for inodes that satisfy `P`;
`d` is the directory they are in. -/
def HostDir.Stored (P : ℕ → Prop) (c : View) (d : ℕ) : HostDir → List Dirent → Prop
  | .nil, es => es = []
  | .file name data _ rest, es => ∃ i es', es = ⟨i, name⟩ :: es' ∧ P i ∧ FileAt c i data ∧
      rest.Stored P c d es'
  | .dir name sub rest, es => ∃ i es' below, es = ⟨i, name⟩ :: es' ∧ P i ∧ c.IsDir i ∧
      c.listing i = ⟨i, dot⟩ :: ⟨d, dotDot⟩ :: below ∧ sub.Stored P c i below ∧
      rest.Stored P c d es'

variable {c : View} {i : ℕ} {data : List UInt8}

variable {c' : View} {es : List Dirent}

lemma FileAt.congr (h : FileAt c i data) (hagree : Agree c c' i)
    (hlive : c'.Live i) : FileAt c' i data where
  live := hlive
  type_eq := hagree.type_eq.trans h.type_eq
  size_eq := hagree.size_eq.trans h.size_eq
  size_le := h.size_le
  bytes k hk := (hagree.byteAt_eq k).trans (h.bytes k hk)

variable {d : ℕ}

/-- What is stored stays stored while its files stay the same. -/
lemma HostDir.Stored.congr {P Q : ℕ → Prop} (hPQ : ∀ j, P j → Q j)
    (hagree : ∀ j, P j → c.Live j → Agree c c' j ∧ c'.Live j) {h : HostDir}
    (hst : h.Stored P c d es) : h.Stored Q c' d es := by
  induction h generalizing d es with
  | nil => exact hst
  | file name data mtime rest ih =>
    obtain ⟨i, es', rfl, hi, hfile, hrest⟩ := hst
    obtain ⟨hsame, hlive⟩ := hagree i hi hfile.live
    exact ⟨i, es', rfl, hPQ i hi, hfile.congr hsame hlive, ih hrest⟩
  | dir name sub rest ihsub ih =>
    obtain ⟨i, es', below, rfl, hi, hdir, hlist, hsub, hrest⟩ := hst
    obtain ⟨hsame, hlive⟩ := hagree i hi (names_dir_live hdir)
    refine ⟨i, es', below, rfl, hPQ i hi, ⟨hlive.1, hsame.type_eq.trans hdir.2⟩, ?_, ihsub hsub,
      ih hrest⟩
    rw [hsame.listing_eq, hlist]

/-! ## What the tool stores -/

variable {img img' : Image} {name : Name}

/-- `dir_add` puts the entry at the end. -/
lemma dirAdd_listing (h : Ready img) {ino : ℕ} (hi : img.view.Live ino)
    (hwhole : (img.view.inodes ino).size % 32 = 0)
    (hmax : (img.view.inodes ino).size + 32 ≤ maxFileSize) (hfits : Dirent.Fits ⟨i, name⟩)
    (heq : dirAdd img ino name i = some img') :
    img'.view.listing ino = img.view.listing ino ++ [⟨i, name⟩] := by
  have hsize := maxFileSize_eq
  have hcount : (img.view.inodes ino).size = 32 * img.view.entryCount ino := by
    rw [View.entryCount]
    omega
  have hname : ¬ nameMax < name.length := Nat.not_lt.mpr hfits.name_length
  rw [dirAdd, if_neg hname, hcount] at heq
  obtain ⟨hw, hsize'⟩ := fileWrite_spec h.storable h.consistent hi (by omega) _ heq
  have hset := EntrySet.of_stored hsize' hw.stored
  rw [Dirent.decode_encode hfits] at hset
  exact hset.listing_eq

/-- An inode in use has a number that fits an entry. -/
lemma Ready.fits_entry (h : Ready img) (hi : img.view.Valid i) (hlen : name.length ≤ nameMax)
    (hnul : ∀ b ∈ name, b ≠ 0) :
    Dirent.Fits ⟨i, name⟩ :=
  ⟨hi.2.trans h.consistent.totalInodes_lt, hlen, hnul⟩

/-- A new directory lists its two dots. -/
lemma addDots_listing (h : Ready img) (hi : img.view.Live i) (hd : img.view.Valid d)
    (hpacked : Packed img.view i) (hsize : (img.view.inodes i).size = 0)
    (heq : addDots img i d = some img') : img'.view.listing i = [⟨i, dot⟩, ⟨d, dotDot⟩] := by
  have hmax := maxFileSize_eq
  rw [addDots] at heq
  obtain ⟨img1, heq1, heq2⟩ := bind_eq_some_iff.mp heq
  obtain ⟨-, hk1, ht1, hsize1⟩ := (dirAdd_costs h hi hpacked (by omega)
    (show dot.length ≤ nameMax by decide) i).2 img1 heq1
  have h1 := h.of_touches hk1 ht1
  have hd1 : img1.view.Valid d := by
    rw [View.Valid, ht1.totalInodes_eq]
    exact hd
  have hempty : img.view.listing i = [] := by
    rw [View.listing, View.entryCount, hsize]
    rfl
  rw [dirAdd_listing h1 ((ht1.live_iff i).mpr hi) (by omega) (by omega)
      (h1.fits_entry hd1 (by decide) dotDot_no_nul) heq2,
    dirAdd_listing h hi (by omega) (by omega) (h.fits_entry hi.1 (by decide) dot_no_nul) heq1,
    hempty]
  rfl

section Create

variable {img : Image} (h : Ready img) {parent : ℕ} (hp : img.view.Live parent)
  (hpacked : Packed img.view parent) (hwhole : (img.view.inodes parent).size % 32 = 0)
  (hmax : (img.view.inodes parent).size + 32 ≤ maxFileSize)
  {name : Name} (hname : name.length ≤ nameMax) (hnul : ∀ b ∈ name, b ≠ 0)

include h hp hwhole hmax hname hnul

/-- A node is complete but for its name; then its entry is the last one of the parent. -/
lemma enter_listing {img1 img2 : Image} {type : ℕ} (ha : Allocs img.view img1.view i type)
    (hk1 : Keeps img img1) (ht : Touches i img1.view img2.view) (hk2 : Keeps img1 img2)
    (heq : dirAdd img2 parent name i = some img') :
    img'.view.listing parent = img.view.listing parent ++ [⟨i, name⟩] := by
  obtain ⟨h2, hi2, hold⟩ := h.of_new ha hk1 ht hk2
  obtain ⟨-, hp2, hparent⟩ := hold parent hp
  have hwhole2 : (img2.view.inodes parent).size % 32 = 0 := by
    rw [hparent.agree.size_eq]
    exact hwhole
  have hmax2 : (img2.view.inodes parent).size + 32 ≤ maxFileSize := by
    rw [hparent.agree.size_eq]
    exact hmax
  rw [dirAdd_listing h2 hp2 hwhole2 hmax2
    (h2.fits_entry hi2.1 hname hnul) heq, hparent.agree.listing_eq]

include hpacked in
/-- `make_dir` enters an empty directory. -/
lemma makeDir_listing (heq : makeDir img parent name = some (i, img')) :
    img'.view.listing parent = img.view.listing parent ++ [⟨i, name⟩] ∧ img'.view.IsDir i ∧
      img'.view.listing i = [⟨i, dot⟩, ⟨parent, dotDot⟩] := by
  rw [makeDir] at heq
  obtain ⟨⟨ino, img1⟩, halloc, heq⟩ := bind_eq_some_iff.mp heq
  obtain ⟨img2, hdots, heq⟩ := bind_eq_some_iff.mp heq
  obtain ⟨img3, hadd, heq⟩ := map_eq_some_iff.mp heq
  cases heq
  obtain ⟨hk1, ha⟩ := inodeAlloc_spec h.storable h.consistent (by decide) (by decide) halloc
  have h1 := h.of_allocs hk1 ha
  have hi1 := ha.live
  have hp1 := (ha.live_iff parent).mpr (.inl hp)
  obtain ⟨-, hk2, ht2, -⟩ := (addDots_costs h1 hi1 (Allocs.packed ha) ha.size_eq parent).2 img2 hdots
  have hlisting := enter_listing h hp hwhole hmax hname hnul ha hk1 ht2 hk2 hadd
  -- naming the directory does not touch it
  obtain ⟨-, hi', hsame⟩ := (enter_costs h hp hpacked hmax hname ha hk1 ht2 hk2).2 img' hadd
  refine ⟨hlisting, ⟨hi'.1, ?_⟩, ?_⟩
  · rw [hsame.agree.type_eq, ht2.type_eq, ha.type_eq]
  · rw [hsame.agree.listing_eq, addDots_listing h1 hi1 hp1.1 (Allocs.packed ha) ha.size_eq hdots]

include hpacked in
/-- `add_host_file` enters a file with the contents of the host file. -/
lemma addHostFile_stored (hdata : data.length ≤ maxFileSize) {mtime : Option ℕ}
    (heq : addHostFile img parent name data mtime = some img') :
    ∃ i, ¬ img.view.Live i ∧ FileAt img'.view i data ∧
      img'.view.listing parent = img.view.listing parent ++ [⟨i, name⟩] := by
  have hsize := maxFileSize_eq
  have hlt : data.length < 4294967296 := by omega
  rw [addHostFile, Nat.mod_eq_of_lt hlt, if_neg (Nat.not_lt.mpr hdata)] at heq
  obtain ⟨⟨i, img1⟩, halloc, heq⟩ := bind_eq_some_iff.mp heq
  obtain ⟨img2, hwrite, hadd⟩ := bind_eq_some_iff.mp heq
  obtain ⟨hk1, ha⟩ := inodeAlloc_spec h.storable h.consistent (by decide) (by decide) halloc
  have hi1 := ha.live
  obtain ⟨hw, -⟩ := fileWrite_spec hk1.storable ha.consistent hi1 (by omega) _ hwrite
  obtain ⟨hk3, ht3⟩ := stamp_spec hlt mtime hw.keeps hw.touches
  -- naming the file does not touch it
  obtain ⟨-, hi', hsame⟩ := (enter_costs h hp hpacked hmax hname ha hk1 ht3 hk3).2 img' hadd
  refine ⟨i, ha.fresh, ⟨hi', ?_, ?_, hdata, fun k hk => ?_⟩,
    enter_listing h hp hwhole hmax hname hnul ha hk1 ht3 hk3 hadd⟩
  · rw [hsame.agree.type_eq, Image.set_view, (node_stamp ..).1, hw.touches.type_eq, ha.type_eq]
  · rw [hsame.agree.size_eq, Image.set_view, setInode_inodes_self]
    rfl
  · rw [hsame.agree.byteAt_eq, Image.set_view, byteAt_stamp, hw.stored.bytes,
      if_pos ⟨by omega, by omega⟩]
    rfl

end Create

/-- `addTree` stores the staging directory at the end of the directory it fills, in inodes that
were free. -/
theorem addTree_stored (h : HostDir) (hin : h.Within) (hv : h.Valid) (hr : Ready img)
    {parent : ℕ} (hp : img.view.Live parent) (hpacked : Packed img.view parent)
    (hwhole : (img.view.inodes parent).size % 32 = 0)
    (hmax : (img.view.inodes parent).size + 32 * h.names.length ≤ maxFileSize)
    (heq : addTree img parent h = some img') :
    ∃ es, img'.view.listing parent = img.view.listing parent ++ es ∧
      h.Stored (fun i => ¬ img.view.Live i) img'.view parent es := by
  -- what is entered later leaves alone what was entered before
  induction h generalizing img img' parent with
  | nil =>
    cases heq
    exact ⟨[], (List.append_nil _).symm, rfl⟩
  | file name data mtime rest ih =>
    obtain ⟨hname, hdata, hrest⟩ := hin
    obtain ⟨hhost, -, hvrest⟩ := hv
    rw [HostDir.names, List.length_cons] at hmax
    obtain ⟨img1, heq1, heq2⟩ := bind_eq_some_iff.mp heq
    have hent := (addHostFile_costs hr hp hpacked (by omega) hname hdata mtime).2 img1 heq1
    obtain ⟨i, hfresh, hfile, hlist⟩ := addHostFile_stored hr hp hpacked hwhole (by omega) hname
      hhost.no_nul hdata heq1
    have hsize := hent.size_eq
    have hp1 := hent.live parent hp
    obtain ⟨es, hlist', hst⟩ := ih hrest hvrest hent.ready hp1 hent.packed (by omega) (by omega) heq2
    have hent' := (addTree_costs rest hrest hent.ready hp1 hent.packed (by omega)).2 img' heq2
    have hne : i ≠ parent := by
      rintro rfl
      exact hfresh hp
    refine ⟨⟨i, name⟩ :: es, ?_, i, es, rfl, hfresh, ?_, ?_⟩
    · rw [hlist', hlist, List.append_assoc, List.singleton_append]
    · exact hfile.congr (hent'.same i hfile.live hne).agree (hent'.live i hfile.live)
    · exact hst.congr (fun j hj hlive => hj (hent.live j hlive)) fun j _ hlive =>
        ⟨.refl _ _, hlive⟩
  | dir name sub rest ihsub ih =>
    obtain ⟨hname, hlarge, hsub, hrest⟩ := hin
    obtain ⟨hhost, -, hvsub, hvrest⟩ := hv
    rw [HostDir.names, List.length_cons] at hmax
    obtain ⟨⟨i, img1⟩, heq1, heq⟩ := bind_eq_some_iff.mp heq
    obtain ⟨img2, heq2, heq3⟩ := bind_eq_some_iff.mp heq
    obtain ⟨hent1, hfresh, hi1, hpackedi, hsizei⟩ :=
      (makeDir_costs hr hp hpacked (by omega) hname).2 (i, img1) heq1
    obtain ⟨hlist1, hdir1, hdots⟩ := makeDir_listing hr hp hpacked hwhole (by omega) hname hhost.no_nul
      heq1
    have hne : i ≠ parent := by
      rintro rfl
      exact hfresh hp
    -- the new directory is filled first
    obtain ⟨below, hbelow, hstsub⟩ := ihsub hsub hvsub hent1.ready hi1 hpackedi (by omega) (by omega)
      heq2
    have hfill := (addTree_costs sub hsub hent1.ready hi1 hpackedi (by omega)).2 img2 heq2
    have hent2 := hent1.fill hp hfresh hfill
    have hsize := hent2.size_eq
    have hp1 := hent1.live parent hp
    have hp2 := hent2.live parent hp
    -- then the rest of the parent
    obtain ⟨es, hlist3, hst⟩ := ih hrest hvrest hent2.ready hp2 hent2.packed (by omega) (by omega)
      heq3
    have hent3 := (addTree_costs rest hrest hent2.ready hp2 hent2.packed (by omega)).2 img' heq3
    have hi2 := hfill.live i hi1
    have hsame := (hent3.same i hi2 hne).agree
    refine ⟨⟨i, name⟩ :: es, ?_, i, es, below, rfl, hfresh, ⟨(hent3.live i hi2).1, ?_⟩, ?_, ?_, ?_⟩
    · rw [hlist3, (hfill.same parent hp1 hne.symm).agree.listing_eq, hlist1, List.append_assoc,
        List.singleton_append]
    · rw [hsame.type_eq, hfill.type_eq, hdir1.2]
    · rw [hsame.listing_eq, hbelow, hdots]
      rfl
    · refine hstsub.congr (fun j hj hlive => hj (hent1.live j hlive)) fun j hj hlive => ?_
      have hjp : j ≠ parent := by
        rintro rfl
        exact hj hp1
      exact ⟨(hent3.same j hlive hjp).agree, hent3.live j hlive⟩
    · exact hst.congr (fun j hj hlive => hj (hent2.live j hlive)) fun j _ hlive =>
        ⟨.refl _ _, hlive⟩

/-! ## What the driver shows -/

/-- The inode is a directory that holds the staging directory; `d` is the one above it. -/
structure DirAt (c : View) (d i : ℕ) (h : HostDir) : Prop where
  valid : h.Valid
  within : h.Within
  isDir : c.IsDir i
  above : c.IsDir d
  /-- Its entries are its two dots, and then those of the staging directory in order. -/
  stored : ∃ es, c.listing i = ⟨i, dot⟩ :: ⟨d, dotDot⟩ :: es ∧ h.Stored (fun _ => True) c i es

/-- The inode holds the node; `d` is the directory it is in. -/
def NodeAt (c : View) (d i : ℕ) : HostNode → Prop
  | .file data => FileAt c i data
  | .dir sub => DirAt c d i sub

variable {node : HostNode}

lemma NodeAt.live (h : NodeAt c d i node) : c.Live i := by
  cases node with
  | file data => exact FileAt.live h
  | dir sub => exact names_dir_live (DirAt.isDir h)

lemma NodeAt.type_eq (h : NodeAt c d i node) : (c.inodes i).type = node.type := by
  cases node with
  | file data => exact FileAt.type_eq h
  | dir sub => exact (DirAt.isDir h).2

/-- A name of the host is in the directory, and stands for the same there. -/
lemma HostDir.Stored.get (hd : c.IsDir d) {h : HostDir} (hv : h.Valid) (hin : h.Within)
    (hst : h.Stored (fun _ => True) c d es) (hget : h.get name = some node) :
    IsHostName name ∧ name.length ≤ nameMax ∧ ∃ i, ⟨i, name⟩ ∈ es ∧ NodeAt c d i node := by
  induction h generalizing es with
  | nil => cases hget
  | file name' data mtime rest ih =>
    obtain ⟨i, es', rfl, -, hfile, hrest⟩ := hst
    rw [HostDir.get, HostDir.entries, List.lookup_cons] at hget
    by_cases heq : name = name'
    · subst heq
      rw [beq_self_eq_true] at hget
      cases hget
      exact ⟨hv.1, hin.1, i, List.mem_cons_self, hfile⟩
    · rw [beq_false_of_ne heq] at hget
      obtain ⟨hhost, hlen, j, hj, hnode⟩ := ih hv.2.2 hin.2.2 hrest hget
      exact ⟨hhost, hlen, j, List.mem_cons_of_mem _ hj, hnode⟩
  | dir name' sub rest _ ih =>
    obtain ⟨i, es', below, rfl, -, hdir, hlist, hsub, hrest⟩ := hst
    rw [HostDir.get, HostDir.entries, List.lookup_cons] at hget
    by_cases heq : name = name'
    · subst heq
      rw [beq_self_eq_true] at hget
      cases hget
      exact ⟨hv.1, hin.1, i, List.mem_cons_self, hv.2.2.1, hin.2.2.1, hdir, hd, below, hlist, hsub⟩
    · rw [beq_false_of_ne heq] at hget
      obtain ⟨hhost, hlen, j, hj, hnode⟩ := ih hv.2.2.2 hin.2.2.2 hrest hget
      exact ⟨hhost, hlen, j, List.mem_cons_of_mem _ hj, hnode⟩

/-- What is listed in a well-formed directory is found there. -/
lemma DirOk.child_of_mem_listing (h : c.DirOk d) (hi : i ≠ 0)
    (hmem : ⟨i, name⟩ ∈ c.listing d) : c.child d name = some i := by
  obtain ⟨k, hk, hent⟩ := List.mem_map.mp hmem
  rw [h.child_eq_some_iff]
  refine ⟨k, List.mem_range.mp hk, ?_, by rw [hent]⟩
  rw [hent, Dirent.isNamed_iff]
  exact ⟨hi, rfl⟩

/-- What the driver's functions return for the node at inode `i` in the directory `parent`. -/
def ShownAs (v : Volume) (parent i : ℕ) : HostNode → Prop
  | .file data => ∀ off len, off + len < 4294967296 →
      readFile v i off len = .ok ((data.drop off).take len)
  | .dir sub => ∃ ls, Lists v i 0 (⟨i, typeDir, dot⟩ :: ⟨parent, typeDir, dotDot⟩ :: ls) ∧
      ls.map (fun l => (l.name, l.type)) = sub.entries.map fun e => (e.1, e.2.type)

section Show

variable {v : Volume} (hv : Healthy v) (hc : v.view.Consistent)

include hv

lemma typeOf_eq (hi : v.view.Valid i) : typeOf v i = (v.view.inodes i).type := by
  rw [typeOf, readInode_ok hv hi]

/-- The entries in use are all of them, and have the types of the host. -/
lemma HostDir.Stored.listed {h : HostDir} (hst : h.Stored (fun _ => True) v.view d es) :
    (∀ e ∈ es, e.ino ≠ 0) ∧
      es.map (fun e => (e.name, typeOf v e.ino)) = h.entries.map fun e => (e.1, e.2.type) := by
  induction h generalizing es with
  | nil =>
    obtain rfl : es = [] := hst
    exact ⟨fun e he => absurd he List.not_mem_nil, rfl⟩
  | file name data mtime rest ih =>
    obtain ⟨i, es', rfl, -, hfile, hrest⟩ := hst
    obtain ⟨hpos, hmap⟩ := ih hrest
    refine ⟨List.forall_mem_cons.mpr ⟨hfile.live.1.1.ne', hpos⟩, ?_⟩
    rw [List.map_cons, hmap, typeOf_eq hv hfile.live.1, hfile.type_eq]
    rfl
  | dir name sub rest _ ih =>
    obtain ⟨i, es', below, rfl, -, hdir, -, -, hrest⟩ := hst
    obtain ⟨hpos, hmap⟩ := ih hrest
    refine ⟨List.forall_mem_cons.mpr ⟨hdir.1.1.ne', hpos⟩, ?_⟩
    rw [List.map_cons, hmap, typeOf_eq hv hdir.1, hdir.2]
    rfl

include hc

/-- A file reads as it was on the host. -/
lemma FileAt.read (h : FileAt v.view i data) {off len : ℕ}
    (hwrap : off + len < 4294967296) : readFile v i off len = .ok ((data.drop off).take len) := by
  rw [readFile_spec hv hc h.live (by rw [h.size_eq]; exact h.size_le) hwrap, h.size_eq]
  congr 1
  apply List.ext_getElem
  · rw [Buf.slice, List.length_map, List.length_range, List.length_take, List.length_drop]
  intro k hk hk'
  rw [List.length_take, List.length_drop] at hk'
  rw [List.getElem_take, List.getElem_drop]
  simp only [Buf.slice, List.getElem_map, List.getElem_range]
  rw [View.contents, h.bytes _ (by omega), List.getD_eq_getElem]

/-- A directory lists its two dots and the entries of the host. -/
lemma DirAt.lists {h : HostDir} (hat : DirAt v.view d i h) (hok : v.view.DirOk i) :
    ShownAs v d i (.dir h) := by
  obtain ⟨es, hlist, hst⟩ := hat.stored
  obtain ⟨hpos, hmap⟩ := hst.listed hv
  have hlists := lists_spec hv hc (names_dir_live hat.isDir) hok hat.isDir.2
  have hall : ∀ e ∈ v.view.listing i, decide (e.ino ≠ 0) = true := by
    rw [hlist]
    intro e he
    rw [decide_eq_true_iff]
    rcases List.mem_cons.mp he with rfl | he
    · exact hat.isDir.1.1.ne'
    · rcases List.mem_cons.mp he with rfl | he
      · exact hat.above.1.1.ne'
      · exact hpos e he
  rw [List.filter_eq_self.mpr hall, hlist, List.map_cons, List.map_cons,
    typeOf_eq hv hat.isDir.1, hat.isDir.2, typeOf_eq hv hat.above.1, hat.above.2] at hlists
  refine ⟨_, hlists, ?_⟩
  rw [List.map_map]
  exact hmap

variable (hs : v.view.Sound)

include hs

/-- The walk of `wfs_lookup` leads where the path leads on the host; without its last name the path
leads to the directory the node is in. -/
theorem walk_node {path : List Name} {h : HostDir} {p : ℕ} (hat : DirAt v.view p d h)
    (hreach : v.view.names.Reached d) (hnode : h.node path = some node) :
    ∃ i q, walk v d path = .ok i ∧ NodeAt v.view q i node ∧
      (v.view.IsDir i → v.view.names.Reached i) ∧
      ((path = [] ∧ q = p) ∨ (path ≠ [] ∧ walk v d path.dropLast = .ok q)) := by
  induction path generalizing h p d with
  | nil =>
    cases hnode
    exact ⟨d, p, rfl, hat, fun _ => hreach, .inl ⟨rfl, rfl⟩⟩
  | cons name rest ih =>
    rw [HostDir.node] at hnode
    cases hget : h.get name with
    | none =>
      rw [hget] at hnode
      cases hnode
    | some first =>
      rw [hget] at hnode
      obtain ⟨es, hlist, hst⟩ := hat.stored
      obtain ⟨hhost, hlen, i, hmem, hfirst⟩ := hst.get hat.isDir hat.valid hat.within hget
      have hchild : v.view.child d name = some i := by
        refine DirOk.child_of_mem_listing (hs.dirOk d hreach) hfirst.live.1.1.ne' ?_
        rw [hlist]
        exact List.mem_cons_of_mem _ (List.mem_cons_of_mem _ hmem)
      have hstep : ∀ l, walk v d (name :: l) = walk v i l := by
        intro l
        rw [walk, if_neg (Nat.not_lt.mpr hlen), dirFind_spec hv hc
          (names_dir_live hat.isDir) (hs.dirOk d hreach) hat.isDir.2, hchild]
      have hnext : v.view.IsDir i → v.view.names.Reached i := fun hi =>
        hreach.step ((names_entry hhost.ne_dot hhost.ne_dotDot).trans hchild) hi
      cases first with
      | file data =>
        -- a file ends the path
        dsimp only at hnode
        split at hnode
        next hrest =>
          cases hnode
          subst hrest
          exact ⟨i, d, hstep [], hfirst, hnext, .inr ⟨List.cons_ne_nil _ _, rfl⟩⟩
        next => cases hnode
      | dir sub =>
        obtain ⟨j, q, hwalk, hat', hreach', hup⟩ := ih hfirst (hnext (DirAt.isDir hfirst)) hnode
        refine ⟨j, q, (hstep rest).trans hwalk, hat', hreach', .inr ⟨List.cons_ne_nil _ _, ?_⟩⟩
        rcases hup with ⟨rfl, rfl⟩ | ⟨hne, hup⟩
        · rfl
        · rw [List.dropLast_cons_of_ne_nil hne, hstep]
          exact hup

end Show

/-! ## The volume made from a staging directory -/

/-- The new root lists its two dots. -/
lemma makeRoot_listing {n buildTime : ℕ} (hmin : 1024 ≤ n) (hmax : n ≤ 2147483648)
    (ht : buildTime < 4294967296) (heq : makeRoot (emptyImage n buildTime) = some img) :
    img.view.listing rootIno = [⟨rootIno, dot⟩, ⟨rootIno, dotDot⟩] := by
  have hr := emptyImage_ready hmin hmax ht
  rw [makeRoot] at heq
  obtain ⟨⟨root, img1⟩, halloc, heq⟩ := bind_eq_some_iff.mp heq
  dsimp only at heq
  split_ifs at heq with hroot
  obtain rfl := not_not.mp hroot
  obtain ⟨hk, ha⟩ := inodeAlloc_spec hr.storable hr.consistent (by decide) (by decide) halloc
  have hr1 := hr.of_allocs hk ha
  have hi1 := ha.live
  exact addDots_listing hr1 hi1 hi1.1 (Allocs.packed ha) ha.size_eq heq

/-- The root of the image holds the staging directory. -/
lemma mkwfs_dirAt {sizeMb time : ℕ} (hpos : 1 ≤ sizeMb) (hsize : sizeMb ≤ 2097152)
    {staging : HostDir} (hvalid : staging.Valid) (hfits : staging.FitsImage sizeMb)
    (hmk : mkwfs sizeMb time staging = some img) : DirAt img.view rootIno rootIno staging := by
  have hdir : img.view.IsDir rootIno := (mkwfs_building hsize hvalid hmk).1.sound.tree.root_dir
  have hmin : 1024 ≤ sizeMb * 1024 := by omega
  have hmax : sizeMb * 1024 ≤ 2147483648 := by omega
  have ht : time % 4294967296 < 4294967296 := Nat.mod_lt _ (by norm_num)
  rw [mkwfs, if_neg (by omega), Nat.mod_eq_of_lt (show sizeMb * 1024 < 4294967296 by omega)] at hmk
  obtain ⟨img1, hroot, hadd⟩ := bind_eq_some_iff.mp hmk
  obtain ⟨hr, hi, hpacked, hsize1⟩ := (makeRoot_costs hmin hmax ht).2 img1 hroot
  have hle := hfits.root_le
  obtain ⟨es, hlist, hst⟩ := addTree_stored staging hfits.within hvalid hr hi hpacked (by omega)
    (by omega) hadd
  rw [makeRoot_listing hmin hmax ht hroot] at hlist
  exact ⟨hvalid, hfits.within, hdir, hdir, es, hlist,
    hst.congr (fun _ _ => trivial) fun _ _ hlive => ⟨.refl _ _, hlive⟩⟩

/-- A view with the same files holds the same staging directory. -/
lemma DirAt.congr {h : HostDir} (hat : DirAt c d i h) (hsame : SameFiles c c')
    (hc : c.Consistent) : DirAt c' d i h := by
  obtain ⟨es, hlist, hst⟩ := hat.stored
  refine ⟨hat.valid, hat.within, (hsame.dir_iff i).mpr hat.isDir, (hsame.dir_iff d).mpr hat.above,
    es, ?_, ?_⟩
  · rw [(hsame.agree hc (names_dir_live hat.isDir)).listing_eq, hlist]
  · exact hst.congr (fun _ hj => hj) fun j _ hlive =>
      ⟨hsame.agree hc hlive, (hsame.live_iff j).mpr hlive⟩

/-- On a volume it fits, the tool makes the image of a staging directory whose paths are not cut. -/
lemma mkwfsMain_of_fits {sizeMb : ℕ} (hsize : sizeMb ≤ 2097152) {host : Host} {path : Name}
    {staging : HostDir} (hvalid : staging.Valid) (hat : staging.IsAt host path)
    (hshort : staging.Short path.length) (hfits : staging.FitsImage sizeMb) (time : ℕ) :
    mkwfsMain host sizeMb time path = mkwfs sizeMb time staging := by
  have hinodes : 1 + staging.nodes ≤ (layout (sizeMb * 1024)).totalInodes - rootIno :=
    hfits.nodes_le
  refine mkwfsMain_eq hvalid hat hshort ?_ time
  rw [Nat.mod_eq_of_lt (show sizeMb * 1024 < 4294967296 by omega)]
  omega

/-- `mkwfs` and the driver agree. From a staging directory that fits the volume and what the tool
builds in memory, with paths that are not cut, the tool makes an image, and a driver that gets the
memory for the bitmap mounts it as a consistent volume. There every path of the host leads to a node
of the same type: a file that reads as on the host, or a directory that lists its two dots and what
the host lists. -/
theorem mkwfs_agrees {sizeMb : ℕ} (hpos : 1 ≤ sizeMb) (hsize : sizeMb ≤ 2097152) (time : ℕ)
    {host : Host} {top : Name} {staging : HostDir} (hvalid : staging.Valid)
    (hat : staging.IsAt host top) (hshort : staging.Short top.length)
    (hfits : staging.FitsImage sizeMb) (hroom : staging.blocks ≤ dataRoomBlocks) (old : ℕ → Buf)
    {env : Env} (hcalm : ∀ n b, env.fails n b = false) {kmalloc : ℕ → Bool}
    (hgrant : kmalloc ((layout (sizeMb * 1024)).bitmapBlocks * 1024) = true) :
    ∃ img v, mkwfsMain host sizeMb time top = some img ∧
      mount env kmalloc (img.disk old) = some v ∧
      v.view.Consistent ∧ v.view.Sound ∧ v.view.names.Full ∧
      ∀ path node, path.head? = some slash → staging.node (components path) = some node →
        ∃ i parent, lookup v path = .ok i ∧ typeOf v i = node.type ∧ ShownAs v parent i node ∧
          ∀ above, above.head? = some slash → components above = (components path).dropLast →
            lookup v above = .ok parent := by
  obtain ⟨img, hmk⟩ := isSome_iff_exists.mp
    ((mkwfs_isSome_iff hpos hsize time hfits).mpr hroom)
  obtain ⟨hb, hk⟩ := mkwfs_building hsize hvalid hmk
  have hmin : 1024 ≤ sizeMb * 1024 := by omega
  have hmax : sizeMb * 1024 ≤ 2147483648 := by omega
  have hg := superblock_geometry hmin hmax hk
  have hmount : mount env kmalloc (img.disk old) =
      some (adopted env (img.disk old) img.superblock) := by
    have hbitmap : img.superblock.bitmapBlocks * 1024 % 4294967296 =
        (layout (sizeMb * 1024)).bitmapBlocks * 1024 := by
      change (layout img.view.totalBlocks).bitmapBlocks * 1024 % 4294967296 = _
      rw [show img.view.totalBlocks = sizeMb * 1024 from hk.totalBlocks_eq]
      refine Nat.mod_eq_of_lt ?_
      change (sizeMb * 1024 + 8191) % 4294967296 / 8192 * 1024 < 4294967296
      omega
    rw [mount_eq hg (disk_mirrors hmin hmax hb hk old) kmalloc hcalm, hbitmap, hgrant,
      if_neg Bool.true_eq_false_eq_False]
  have hsame := sameFiles_adopted hmin hmax hb hk old env
  generalize hv : adopted env (img.disk old) img.superblock = v at hmount hsame
  have henv : v.env = env := by
    rw [← hv]
    rfl
  have hfresh : IsFresh v :=
    ⟨sizeMb, time, staging, img, old, kmalloc, hsize, hvalid, hmk, henv.symm ▸ hmount⟩
  have hcalm' : ∀ n b, v.env.fails n b = false := henv.symm ▸ hcalm
  obtain ⟨hhealthy, hc, hs, hfull⟩ := hfresh.intact hcalm'
  refine ⟨img, v, (mkwfsMain_of_fits hsize hvalid hat hshort hfits time).trans hmk, hmount, hc, hs,
    hfull, fun path node hhead hnode => ?_⟩
  have hlook : ∀ p : Name, p.head? = some slash → lookup v p = walk v rootIno (components p) := by
    intro p hp
    rw [lookup, if_neg (by simp [hhealthy.mounted]), if_neg (not_not.mpr hp),
      hhealthy.geometry.root_eq]
  have hroot := (mkwfs_dirAt hpos hsize hvalid hfits hmk).congr hsame hb.consistent
  obtain ⟨i, q, hwalk, hat, hreach, hup⟩ := walk_node hhealthy hc hs hroot (.root _) hnode
  refine ⟨i, q, (hlook path hhead).trans hwalk, ?_, ?_, fun above habove hcomp => ?_⟩
  · rw [typeOf_eq hhealthy hat.live.1, hat.type_eq]
  · cases node with
    | file data => exact fun off len hwrap => FileAt.read hhealthy hc hat hwrap
    | dir sub => exact DirAt.lists hhealthy hc hat (hs.dirOk i (hreach (DirAt.isDir hat)))
  rw [hlook above habove, hcomp]
  rcases hup with ⟨hnil, rfl⟩ | ⟨-, hup⟩
  · -- the root is above itself
    rw [hnil]
    rfl
  · exact hup

/-- `sampleDir` fits a volume of 1 MiB. -/
lemma sampleDir_fitsImage : sampleDir.FitsImage 1 := by
  have hwithin : sampleDir.Within := by
    refine ⟨?_, ?_, ?_, ?_, ?_, ?_, ⟨?_, ?_, trivial⟩, trivial⟩ <;> decide
  exact ⟨hwithin, by decide, by decide, by decide⟩

/-- A host with `sampleDir` at the path `s`. -/
def sampleHost : Host := fun path =>
  [(ascii "s", HostEntry.dir [dot, ascii "a", ascii "b", dotDot, ascii "d"]),
    (ascii "s/a", .file (ascii "hello") none), (ascii "s/b", .file (ascii "bye") none),
    (ascii "s/d", .dir [ascii "c", dot, dotDot]), (ascii "s/d/c", .file [] none)].lookup path

lemma sampleDir_isAt : sampleDir.IsAt sampleHost (ascii "s") :=
  ⟨⟨_, rfl, by decide⟩, rfl, rfl, ⟨_, rfl, by decide⟩, ⟨rfl, trivial⟩, trivial⟩

lemma sampleDir_short : sampleDir.Short (ascii "s").length := by
  refine ⟨?_, ?_, ?_, ⟨?_, trivial⟩, trivial⟩ <;> decide

theorem mkwfs_agrees_sampleDir :
    ∃ img v, mkwfsMain sampleHost 1 0 (ascii "s") = some img ∧
      mount sampleEnv (fun _ => true) (img.disk fun _ => Buf.zero) = some v ∧
      v.view.Consistent ∧ v.view.Sound ∧ v.view.names.Full ∧
      ∀ path node, path.head? = some slash → sampleDir.node (components path) = some node →
        ∃ i parent, lookup v path = .ok i ∧ typeOf v i = node.type ∧ ShownAs v parent i node ∧
          ∀ above, above.head? = some slash → components above = (components path).dropLast →
            lookup v above = .ok parent :=
  mkwfs_agrees (by norm_num) (by norm_num) 0 sampleDir_valid sampleDir_isAt sampleDir_short
    sampleDir_fitsImage (by decide) (fun _ => Buf.zero) (fun _ _ => rfl) rfl

/-! ## Trees the tool refuses -/

/-- Five files with the same contents. -/
def fiveFiles (data : List UInt8) : HostDir :=
  .file (ascii "a") data none <| .file (ascii "b") data none <| .file (ascii "c") data none <|
    .file (ascii "d") data none <| .file (ascii "e") data none .nil

/-- A host with these files at the path `s`. -/
def fiveHost (data : List UInt8) : Host := fun path =>
  if path = ascii "s" then some (.dir [ascii "a", ascii "b", ascii "c", ascii "d", ascii "e"])
  else some (.file data none)

lemma fiveFiles_isAt (data : List UInt8) : (fiveFiles data).IsAt (fiveHost data) (ascii "s") := by
  have hne : ∀ name, ascii "s" ++ slash :: name ≠ ascii "s" := by
    intro name h
    simpa using congrArg List.length h
  have hnames : [ascii "a", ascii "b", ascii "c", ascii "d", ascii "e"].filter
      (fun n => !(n = dot ∨ n = dotDot)) = [ascii "a", ascii "b", ascii "c", ascii "d", ascii "e"] := by
    decide
  refine ⟨⟨_, rfl, hnames⟩, ?_, ?_, ?_, ?_, ?_, trivial⟩
  all_goals exact if_neg (hne _)

lemma fiveFiles_short (data : List UInt8) : (fiveFiles data).Short (ascii "s").length := by
  refine ⟨?_, ?_, ?_, ?_, ?_, trivial⟩ <;> decide

lemma fiveFiles_valid (data : List UInt8) : (fiveFiles data).Valid := by
  have hname : ∀ name ∈ [ascii "a", ascii "b", ascii "c", ascii "d", ascii "e"],
      name ≠ dot ∧ name ≠ dotDot ∧ ∀ b ∈ name, b ≠ 0 := by
    decide +kernel
  have hhost : ∀ name ∈ [ascii "a", ascii "b", ascii "c", ascii "d", ascii "e"], IsHostName name :=
    fun name h => ⟨(hname name h).1, (hname name h).2.1, (hname name h).2.2⟩
  have hnodup : [ascii "a", ascii "b", ascii "c", ascii "d", ascii "e"].Nodup := by decide
  simp only [List.nodup_cons] at hnodup
  exact ⟨hhost _ (by simp), hnodup.1, hhost _ (by simp), hnodup.2.1, hhost _ (by simp),
    hnodup.2.2.1, hhost _ (by simp), hnodup.2.2.2.1, hhost _ (by simp), List.not_mem_nil, trivial⟩

/-- Five files of the largest size take 330301 blocks. -/
lemma fiveFiles_blocks (hdata : data.length = maxFileSize) :
    (fiveFiles data).blocks = 330301 := by
  have hfile : fileBlocks data.length = 66060 := by
    rw [hdata, fileBlocks, blocksFor_eq]
    rfl
  have hnames : (fiveFiles data).names.length = 5 := rfl
  have hroot : fileBlocks (32 * (5 + 2)) = 1 := by decide
  rw [HostDir.blocks, hnames, hroot]
  simp only [fiveFiles, HostDir.inside, hfile]

lemma fiveFiles_fitsImage (hdata : data.length = maxFileSize) :
    (fiveFiles data).FitsImage 1024 := by
  have hlen := hdata.le
  refine ⟨⟨?_, hlen, ?_, hlen, ?_, hlen, ?_, hlen, ?_, hlen, trivial⟩, ?_, ?_, ?_⟩
  iterate 5 decide
  · exact (by decide : 32 * (5 + 2) ≤ maxFileSize)
  · rw [fiveFiles_blocks hdata]
    decide
  · exact (by decide : 1 + 5 ≤ (layout (1024 * 1024)).freeInodes)

/-- Five files of the largest size fit a volume of 1 GiB, and the tool refuses them. A volume of
4 TiB has a block count of zero, and the tool refuses even to make it empty. -/
theorem mkwfs_refuses :
    ((fiveFiles (List.replicate maxFileSize 0)).Valid ∧
      (fiveFiles (List.replicate maxFileSize 0)).FitsImage 1024 ∧
      (fiveFiles (List.replicate maxFileSize 0)).IsAt (fiveHost (List.replicate maxFileSize 0))
        (ascii "s") ∧
      mkwfsMain (fiveHost (List.replicate maxFileSize 0)) 1024 0 (ascii "s") = none) ∧
    HostDir.nil.FitsImage 4194304 ∧
      ∀ host, HostDir.nil.IsAt host (ascii "s") → mkwfsMain host 4194304 0 (ascii "s") = none := by
  have hdata : (List.replicate maxFileSize (0 : UInt8)).length = maxFileSize :=
    List.length_replicate
  generalize List.replicate maxFileSize (0 : UInt8) = data at hdata ⊢
  refine ⟨⟨fiveFiles_valid data, fiveFiles_fitsImage hdata, fiveFiles_isAt data, ?_⟩, ?_, ?_⟩
  · rw [mkwfsMain_of_fits (by omega) (fiveFiles_valid data) (fiveFiles_isAt data)
      (fiveFiles_short data) (fiveFiles_fitsImage hdata), ← not_isSome_iff_eq_none,
      mkwfs_isSome_iff (by omega) (by omega) 0 (fiveFiles_fitsImage hdata),
      fiveFiles_blocks hdata]
    decide
  · exact ⟨trivial, by decide, by decide, by decide⟩
  · intro host _
    have hroot : makeRoot (emptyImage (4194304 * 1024 % 4294967296) (0 % 4294967296)) = none := by
      decide
    rw [mkwfsMain, if_neg (by decide), hroot]
    rfl

end Wos.Mkwfs
