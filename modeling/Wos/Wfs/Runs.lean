import Wos.Base.Machine
import Wos.Mkwfs.Intact

/-!
# Runs of the file system

Sequences of calls of `kernel/fs/wfs.c` on a device that never reports an error, with any paths and
any data. The namespace stays a tree of well-formed directories and the allocation consistent, as
long as only regular files are written to and truncated; and when new names are only made in
directories, every inode in use stays named.

## Main definitions

* `WfsCall`, `WfsCall.exec`, `wfsStep`: the calls and the machine they make up;
* `Intact`: what a run keeps;
* `View.Entry`, `View.IsTree`: the tree property in terms of the entries of the directories.

## Main results

* `exec_intact`, `exec_full`: one call;
* `run_intact`: every run;
* `View.isTree_iff`: the tree property is soundness with nothing out of reach;
* `run_isTree`: the namespace is always a tree.
-/

namespace Wos.Wfs

open Mkwfs Option

/-! ## The calls -/

/-- The calls that change a volume. -/
inductive WfsCall
  | create (path : CString) (type : FileType)
  | unlink (path : CString)
  | rename (fromPath toPath : CString)
  | write (ino off : ℕ) (buf : Buf) (len : ℕ)
  | truncate (ino : ℕ)
  | utime (ino mtime : ℕ)

/-- The volume after a call. -/
def WfsCall.exec (v : Volume) : WfsCall → Volume
  | .create path type => (Wfs.create v path.1 type).2
  | .unlink path => (Wfs.unlink v path.1).2
  | .rename fromPath toPath => (Wfs.rename v fromPath.1 toPath.1).2
  | .write ino off buf len => (writeFile v ino off buf len).2
  | .truncate ino => (Wfs.truncate v ino).2
  | .utime ino mtime => (Wfs.utime v ino mtime).2

/-- A call and the surroundings it is made in. -/
structure WfsEvent where
  env : Env
  call : WfsCall

/-- One allowed call, on a device that does not fail. -/
def wfsStep (allowed : Volume → WfsCall → Prop) (v : Volume) (l : WfsEvent) (v' : Volume) : Prop :=
  (∀ n b, l.env.fails n b = false) ∧ allowed { v with env := l.env } l.call ∧
    v' = l.call.exec { v with env := l.env }

/-- The volume after an event. -/
def WfsEvent.exec (v : Volume) (l : WfsEvent) : Volume := l.call.exec { v with env := l.env }

variable {v : Volume}

lemma wfsStep_exec {allowed : Volume → WfsCall → Prop} {l : WfsEvent}
    (hcalm : ∀ n b, l.env.fails n b = false) (h : allowed { v with env := l.env } l.call) :
    wfsStep allowed v l (l.exec v) := ⟨hcalm, h, rfl⟩

/-- What a call on an inode may be given: a regular file to write to or to truncate, any inode in
use to set the time of. -/
def WfsCall.OnFiles (v : Volume) : WfsCall → Prop
  | .create _ _ => True
  | .unlink _ => True
  | .rename _ _ => True
  | .write ino _ _ _ => v.view.Live ino ∧ ¬ v.view.IsDir ino
  | .truncate ino => v.view.Live ino ∧ ¬ v.view.IsDir ino
  | .utime ino _ => v.view.Live ino

/-- What a run keeps. -/
structure Intact (v : Volume) : Prop where
  healthy : Healthy v
  consistent : v.view.Consistent
  sound : v.view.Sound

lemma Intact.setEnv (h : Intact v) {e : Env} (he : ∀ n b, e.fails n b = false) :
    Intact { v with env := e } :=
  ⟨⟨h.healthy.geometry, he, h.healthy.mounted⟩, h.consistent, h.sound⟩

variable {v' : Volume}

lemma Intact.of_shows {w : ℕ} (h : Intact v) (hframe : v'.frame = v.frame)
    (hshows : Shows v.view v'.view w v.view.child) : Intact v' :=
  ⟨h.healthy.of_frame hframe, hshows.consistent, hshows.sound h.sound⟩

variable {d i : ℕ} {name : Name}

lemma Intact.of_removed (h : Intact v) (hframe : v'.frame = v.frame)
    (hrem : Removed v.view v'.view d name i) : Intact v' :=
  ⟨h.healthy.of_frame hframe, hrem.consistent, hrem.sound h.sound⟩

lemma Intact.of_created (h : Intact v) (hframe : v'.frame = v.frame)
    (hcr : Created v.view v'.view d name i) : Intact v' :=
  ⟨h.healthy.of_frame hframe, hcr.extends_.consistent, hcr.sound h.sound⟩

variable {m d' : ℕ} {k' : Name}

lemma Intact.of_moved {k : Name} (h : Intact v) (hframe : v'.frame = v.frame)
    (hmv : Moved v.view v'.view d k m d' k') : Intact v' :=
  ⟨h.healthy.of_frame hframe, hmv.shows_.consistent, hmv.sound h.sound⟩

variable {v₁ : Volume}

lemma Displaced.frame_eq (h : Displaced v m d' k' v₁) : v₁.frame = v.frame := by
  cases h with
  | free => rfl
  | file _ _ hframe _ => exact hframe

lemma Intact.of_displaced (h : Intact v) (hd : Displaced v m d' k' v₁) : Intact v₁ := by
  cases hd with
  | free => exact h
  | file _ _ hframe hrem => exact h.of_removed hframe hrem

lemma intact_sample : Intact Mkwfs.sample :=
  ⟨sample_intact.1, sample_intact.2.1, sample_intact.2.2.1⟩

/-! ## One call -/

/-- Emptying a file changes no name. -/
lemma Emptied.shows_still {c c' : View} (h : Emptied i c c') (hi : ¬ c.IsDir i) :
    Shows c c' i c.child := by
  have hagree : ∀ e, c.names.dir e → Agree c c' e := fun e he =>
    h.agree fun hei => hi (hei ▸ he)
  exact ⟨h.consistent, h.live_iff, h.dir_iff, fun j _ => h.type_eq_all j,
    fun e he => (hagree e he).dirOk, fun e he => (hagree e he).dense,
    fun e n he => (hagree e he).child_eq n, fun j _ _ hj => h.agree hj⟩

/-- `wfs_utime` changes no contents. -/
lemma utime_shows (hv : Healthy v) (hc : v.view.Consistent) (hi : v.view.Live i) (mtime w : ℕ) :
    ∃ v', utime v i mtime = (.ok (), v') ∧ v'.frame = v.frame ∧
      Shows v.view v'.view w v.view.child := by
  obtain ⟨v', hwrite, hview, hframe⟩ := writeInode_spec hv hi.1
    (n := (v.view.inodes i).stamp (v.view.inodes i).size (mtime % 4294967296))
    { v.view_inodes_fits i with mtime_lt := Nat.mod_lt _ (by norm_num) }
  have htouch : Touches i v.view v'.view := hview ▸ Touches.stamp i _ _ hc
  have hagree : Agree v.view v'.view i := by
    refine ⟨htouch.type_eq, ?_, fun k => ?_, fun p hp => ?_⟩
    · rw [hview, View.setInode_inodes_self]
      rfl
    · rw [hview, View.byteAt_stamp]
    · rwa [hview, View.slot_stamp]
  refine ⟨v', ?_, hframe, ?_⟩
  · rw [utime, readInode_ok hv hi.1]
    exact hwrite
  have hstill := htouch.shows_still fun _ => hagree
  refine { hstill with file := fun j hl _ _ => ?_ }
  by_cases hji : j = i
  · exact hji ▸ hagree
  · exact htouch.agree hji hl

/-- Every call on regular files keeps the volume intact, whatever the paths and the data. -/
theorem exec_intact (h : Intact v) {call : WfsCall} (hcall : call.OnFiles v) :
    Intact (call.exec v) := by
  have ⟨hv, hc, hs⟩ := h
  cases call with
  | create path type =>
    obtain ⟨r, v', heq, hres⟩ := create_spec hv hc hs path type
    rw [WfsCall.exec, heq]
    cases hres with
    | refused => exact h
    | undone _ _ hframe hshows => exact h.of_shows hframe hshows
    | created _ hframe hcr _ => exact h.of_created hframe hcr
  | unlink path =>
    obtain ⟨r, v', heq, hres⟩ := unlink_spec hv hc hs path
    rw [WfsCall.exec, heq]
    cases hres with
    | refused => exact h
    | removed _ hframe hrem => exact h.of_removed hframe hrem
  | rename fromPath toPath =>
    obtain ⟨r, v', heq, hres⟩ := rename_spec hv hc hs fromPath toPath
    rw [WfsCall.exec, heq]
    cases hres with
    | refused | idle => exact h
    | failed _ _ _ _ hd hframe hshows =>
      exact (h.of_displaced hd).of_shows (hframe.trans hd.frame_eq.symm) hshows
    | moved _ _ _ hd hframe hmv _ =>
      exact (h.of_displaced hd).of_moved (hframe.trans hd.frame_eq.symm) hmv
  | write ino off buf len =>
    obtain ⟨r, v', heq, hframe, htouch, -⟩ := writeFile_spec hv hc hcall.1 off buf len
    rw [WfsCall.exec, heq]
    exact h.of_shows hframe (htouch.shows_still fun hd => absurd hd hcall.2)
  | truncate ino =>
    obtain ⟨v', heq, hframe, hempty⟩ := truncate_spec hv hc hcall.1
    rw [WfsCall.exec, heq]
    exact h.of_shows hframe (hempty.shows_still hcall.2)
  | utime ino mtime =>
    obtain ⟨v', heq, hframe, hshows⟩ := utime_shows hv hc hcall mtime 0
    rw [WfsCall.exec, heq]
    exact h.of_shows hframe hshows

/-- A call that only changes names, and makes new ones only in directories. -/
def WfsCall.InDirs (v : Volume) : WfsCall → Prop
  | .create path _ => ∀ d name, resolveParent v path.1 = .ok (d, name) → v.view.IsDir d
  | .unlink _ => True
  | .rename _ toPath => ∀ d name, resolveParent v toPath.1 = .ok (d, name) → v.view.IsDir d
  | .write _ _ _ _ => False
  | .truncate _ => False
  | .utime _ _ => False

lemma WfsCall.InDirs.onFiles {call : WfsCall} (h : call.InDirs v) : call.OnFiles v := by
  cases call with
  | create | unlink | rename => trivial
  | write | truncate | utime => exact h.elim

/-- Making room for a new name loses nothing else. -/
lemma Displaced.full (h : Displaced v m d' k' v₁) (hs : v.view.Sound)
    (hF : v.view.names.Full) : v₁.view.names.Full := by
  cases h with
  | free => exact hF
  | file _ _ _ hrem => exact hrem.removes.full hs.tree hF hrem.leaf

/-- Removing the file that stands in the way leaves every directory within reach. -/
lemma Displaced.reached_forth {e : ℕ} (h : Displaced v m d' k' v₁) (hs : v.view.Sound)
    (he : v.view.names.Reached e) :
    v₁.view.names.Reached e := by
  cases h with
  | free => exact he
  | @file _ x _ hx _ hrem =>
    obtain ⟨n, hn⟩ := he
    have hne : e ≠ x := by
      rintro rfl
      exact hx (hs.tree.dir_of_reached hn.reached)
    exact (hrem.removes.reach_forth hs.tree hrem.leaf hn hne).reached

/-- When new names are made only in directories, every inode in use stays named. -/
theorem exec_full (h : Intact v) (hF : v.view.names.Full) {call : WfsCall}
    (hcall : call.InDirs v) : (call.exec v).view.names.Full := by
  have ⟨hv, hc, hs⟩ := h
  cases call with
  | create path type =>
    obtain ⟨r, v', heq, hres⟩ := create_spec hv hc hs path type
    rw [WfsCall.exec, heq]
    cases hres with
    | refused => exact hF
    | undone _ _ _ hshows => exact hshows.same.full hs.tree hF
    | created hpath _ hcr _ =>
      have hd := (resolveParent_spec hv hc hs hpath).1.reached (hcall _ _ hpath)
      exact hcr.adds.full hs.tree hF hd
  | unlink path =>
    obtain ⟨r, v', heq, hres⟩ := unlink_spec hv hc hs path
    rw [WfsCall.exec, heq]
    cases hres with
    | refused => exact hF
    | removed _ _ hrem => exact hrem.removes.full hs.tree hF hrem.leaf
  | rename fromPath toPath =>
    obtain ⟨r, v', heq, hres⟩ := rename_spec hv hc hs fromPath toPath
    rw [WfsCall.exec, heq]
    cases hres with
    | refused | idle => exact hF
    | failed _ _ _ _ hd _ hshows =>
      exact hshows.same.full (h.of_displaced hd).sound.tree (hd.full hs hF)
    | moved _ hto _ hd _ hmv hbelow =>
      have hs1 := (h.of_displaced hd).sound
      have hreach := (resolveParent_spec hv hc hs hto).1.reached (hcall _ _ hto)
      have hreach1 := hd.reached_forth hs hreach
      exact (hmv.moves hs1).full hs1.tree (hd.full hs hF) hreach1 fun hm =>
        hbelow hm (hs1.tree.dir_of_reached hreach1)
  | write | truncate | utime => exact hcall.elim

/-- Every run of calls on regular files keeps the volume intact. -/
theorem run_intact {ls : List WfsEvent} (h : Intact v)
    (hrun : Run (wfsStep fun v call => call.OnFiles v) v ls v') : Intact v' := by
  refine hrun.invariant (P := Intact) (fun s l s' hs hstep => ?_) h
  obtain ⟨hcalm, hallowed, rfl⟩ := hstep
  exact exec_intact (hs.setEnv hcalm) hallowed

/-- The allocation is consistent after every run of calls on regular files, from a fresh volume and
from any other whose allocation and namespace are sound. -/
theorem run_consistent {v v' : Volume} {ls : List WfsEvent}
    (hstart : Intact v ∨ Mkwfs.IsFresh v ∧ ∀ n b, v.env.fails n b = false)
    (hrun : Run (wfsStep fun v call => call.OnFiles v) v ls v') : v'.view.Consistent := by
  have hv : Intact v := by
    rcases hstart with hv | ⟨hfresh, hcalm⟩
    · exact hv
    · obtain ⟨hv, hc, hs, -⟩ := hfresh.intact hcalm
      exact ⟨hv, hc, hs⟩
  exact (run_intact hv hrun).consistent

lemma nul_notMem_ascii_a : (0 : UInt8) ∉ ascii "/a" := by decide

/-- The small volume: a file is removed. -/
def removeA : WfsEvent := ⟨Mkwfs.sampleEnv, .unlink ⟨ascii "/a", nul_notMem_ascii_a⟩⟩

/-- The small volume: a directory is made. -/
def makeE : WfsEvent := ⟨Mkwfs.sampleEnv, .create ⟨ascii "/e", by decide⟩ .dir⟩

theorem run_consistent_sample :
    ∃ v', Run (wfsStep fun v call => call.OnFiles v) Mkwfs.sample [removeA, makeE] v' ∧
      v'.view.Consistent := by
  have hrun : Run (wfsStep fun v call => call.OnFiles v) Mkwfs.sample [removeA, makeE] _ :=
    .cons (wfsStep_exec (fun _ _ => rfl) trivial)
      (.cons (wfsStep_exec (fun _ _ => rfl) trivial) (.nil _))
  exact ⟨_, hrun, run_consistent
    (.inr ⟨isFresh_sample, sample_intact.1.calm⟩) hrun⟩

/-- What a call on an inode is given is an inode in use, which may be a directory. -/
def WfsCall.OnLive (v : Volume) : WfsCall → Prop
  | .create _ _ => True
  | .unlink _ => True
  | .rename _ _ => True
  | .write ino _ _ _ => v.view.Live ino
  | .truncate ino => v.view.Live ino
  | .utime ino _ => v.view.Live ino

/-- An entry that names a free inode, written into the root directory of the small volume. -/
def writeGhost : WfsEvent :=
  ⟨Mkwfs.sampleEnv, .write rootIno 160 (Dirent.encode ⟨9, ascii "ghost"⟩) 32⟩

/-- The name is removed again. -/
def removeGhost : WfsEvent := ⟨Mkwfs.sampleEnv, .unlink ⟨ascii "/ghost", by decide⟩⟩

/-- Writing to a directory does not disturb the allocation, but the namespace: removing the name
that was written then frees an inode that is free already. -/
theorem not_consistent_of_ghost :
    Mkwfs.IsFresh Mkwfs.sample ∧ ∃ v₁ v₂,
      wfsStep (fun v call => call.OnLive v) Mkwfs.sample writeGhost v₁ ∧ v₁.view.Consistent ∧
      wfsStep (fun v call => call.OnLive v) v₁ removeGhost v₂ ∧ ¬ v₂.view.Consistent := by
  obtain ⟨hv, hc, -, -⟩ := sample_intact
  have hlive : Mkwfs.sample.view.Live rootIno := by decide +kernel
  refine ⟨isFresh_sample, _, _, wfsStep_exec (fun _ _ => rfl) hlive, ?_,
    wfsStep_exec (fun _ _ => rfl) trivial, fun hc2 => ?_⟩
  · obtain ⟨r, v', heq, -, htouch, -⟩ :=
      writeFile_spec hv hc hlive 160 (Dirent.encode ⟨9, ascii "ghost"⟩) 32
    have hexec : writeGhost.exec Mkwfs.sample = v' := by
      rw [WfsEvent.exec, writeGhost, sample_setEnv, WfsCall.exec, heq]
    rw [hexec]
    exact htouch.consistent
  · have hcount := hc2.freeInodes_eq
    revert hcount
    decide +kernel

/-! ## The shape of the namespace -/

/-- Entry `k` of directory `d` gives inode `i` the name `name`. -/
def View.Entry (c : View) (d k : ℕ) (name : Name) (i : ℕ) : Prop :=
  k < c.entryCount d ∧ i ≠ 0 ∧ c.dirent d k = ⟨i, name⟩

/-- A name other than the two dots. -/
def Plain (name : Name) : Prop := name ≠ dot ∧ name ≠ dotDot

/-- Following `..` from `d` leads to the root. -/
inductive View.ClimbsToRoot (c : View) : ℕ → Prop
  | root : ClimbsToRoot c rootIno
  | up {d k p : ℕ} : c.Entry d k dotDot p → ClimbsToRoot c p → ClimbsToRoot c d

/-- `p` is the parent of directory `d`: a directory with an entry for it, and the root for the
root. -/
def View.IsParent (c : View) (d p : ℕ) : Prop :=
  if d = rootIno then p = rootIno
  else c.IsDir p ∧ ∃ k name, Plain name ∧ c.Entry p k name d

/-- The namespace is a tree. -/
structure View.IsTree (c : View) : Prop where
  /-- The root is a directory. -/
  root_dir : c.IsDir rootIno
  /-- One entry `.`, which names the directory. -/
  self : ∀ d, c.IsDir d → ∃ k, c.Entry d k dot d ∧ ∀ k' i, c.Entry d k' dot i → k' = k
  /-- One entry `..`, which names the parent. -/
  up : ∀ d, c.IsDir d → ∃ k p, c.Entry d k dotDot p ∧ c.IsParent d p ∧
    ∀ k' i, c.Entry d k' dotDot i → k' = k
  /-- No name has two entries. -/
  distinct : ∀ d j k name i i', c.IsDir d → c.Entry d j name i → c.Entry d k name i' → j = k
  /-- Entries name inodes in use. -/
  entry_live : ∀ d k name i, c.IsDir d → Plain name → c.Entry d k name i → c.Live i
  /-- None but dots names the root. -/
  entry_ne_root : ∀ d k name i, c.IsDir d → Plain name → c.Entry d k name i → i ≠ rootIno
  /-- Every other inode in use has one name. -/
  named : ∀ i, c.Live i → i ≠ rootIno →
    ∃! dk : ℕ × ℕ, c.IsDir dk.1 ∧ ∃ name, Plain name ∧ c.Entry dk.1 dk.2 name i
  /-- Following `..` leads to the root. -/
  climbs : ∀ d, c.IsDir d → c.ClimbsToRoot d

/-- Every directory is an array of whole entries, no longer than a file may be and without
holes. -/
structure View.DirsFormed (c : View) : Prop where
  whole : ∀ d, c.IsDir d → (c.inodes d).size % 32 = 0
  size_le : ∀ d, c.IsDir d → (c.inodes d).size ≤ maxFileSize
  dense : ∀ d, c.IsDir d → c.Dense d

namespace View

variable {c : View}

lemma entry_iff_isNamed {k : ℕ} :
    c.Entry d k name i ↔
      k < c.entryCount d ∧ (c.dirent d k).isNamed name = true ∧ (c.dirent d k).ino = i := by
  rw [Entry, Dirent.isNamed_iff]
  constructor
  · rintro ⟨hk, hi, he⟩
    rw [he]
    exact ⟨hk, ⟨hi, rfl⟩, rfl⟩
  · rintro ⟨hk, ⟨hi, rfl⟩, rfl⟩
    exact ⟨hk, hi, rfl⟩

/-- In a well-formed directory the entries are what names are looked up as. -/
lemma DirOk.child_iff_entry (h : c.DirOk d) :
    c.child d name = some i ↔ ∃ k, c.Entry d k name i := by
  simp only [h.child_eq_some_iff, entry_iff_isNamed]

lemma DirOk.names_entry_iff (h : c.DirOk d) :
    c.names.entry d name = some i ↔ Plain name ∧ ∃ k, c.Entry d k name i := by
  constructor
  · intro he
    obtain ⟨hdot, hdotDot, hchild⟩ := names_entry_eq_some he
    exact ⟨⟨hdot, hdotDot⟩, h.child_iff_entry.mp hchild⟩
  · rintro ⟨⟨hdot, hdotDot⟩, hk⟩
    rw [names_entry hdot hdotDot]
    exact h.child_iff_entry.mpr hk

lemma DirOk.entry_unique {j k i' : ℕ} (h : c.DirOk d) (hj : c.Entry d j name i)
    (hk : c.Entry d k name i') : j = k := by
  rw [entry_iff_isNamed] at hj hk
  exact h.distinct j k name hj.1 hk.1 hj.2.1 hk.2.1

/-! ### From the entries to the graph -/

section OfTree

variable (hf : c.DirsFormed) (ht : c.IsTree)

include hf ht

lemma IsTree.dirOk (hd : c.IsDir d) : c.DirOk d where
  whole := hf.whole d hd
  size_le := hf.size_le d hd
  distinct j k name hj hk hnj hnk :=
    ht.distinct d j k name _ _ hd (entry_iff_isNamed.mpr ⟨hj, hnj, rfl⟩)
      (entry_iff_isNamed.mpr ⟨hk, hnk, rfl⟩)

/-- Going up from a directory to the root and down again reaches it. -/
lemma IsTree.reached (hd : c.IsDir d) : c.names.Reached d := by
  induction ht.climbs d hd with
  | root => exact .root _
  | @up d k p hk _ ih =>
    by_cases hroot : d = rootIno
    · rw [hroot]
      exact .root _
    obtain ⟨k', q, hq, hparent, honly⟩ := ht.up d hd
    obtain rfl := honly k p hk
    obtain rfl : p = q := by
      have := hk.2.2.symm.trans hq.2.2
      exact (Dirent.mk.inj this).1
    rw [IsParent, if_neg hroot] at hparent
    obtain ⟨hp, l, name, hplain, hentry⟩ := hparent
    exact (ih hp).step ((ht.dirOk hf hp).names_entry_iff.mpr ⟨hplain, l, hentry⟩) hd

/-- The entries give the graph. -/
lemma IsTree.names_tree : c.names.Tree := by
  have hname : ∀ {d i name}, c.names.Reached d → c.names.entry d name = some i →
      c.IsDir d ∧ Plain name ∧ ∃ k, c.Entry d k name i := by
    intro d i name hd he
    have hdir : c.IsDir d := hd.induct ht.root_dir fun _ _ _ _ _ _ hi => hi
    exact ⟨hdir, (ht.dirOk hf hdir).names_entry_iff.mp he⟩
  refine ⟨ht.root_dir, fun i hi => names_dir_live hi, ?_, ?_, ?_, ?_, ?_, ?_⟩
  · intro d i hd hi
    have hdir : c.IsDir d := hd.induct ht.root_dir fun _ _ _ _ _ _ hi => hi
    obtain ⟨k, hk, -⟩ := ht.self d hdir
    have hself := (ht.dirOk hf hdir).child_iff_entry.mpr ⟨k, hk⟩
    exact mem_unique hi hself
  · intro p hp
    obtain ⟨k, q, hq, hparent, -⟩ := ht.up rootIno ht.root_dir
    have hup := (ht.dirOk hf ht.root_dir).child_iff_entry.mpr ⟨k, hq⟩
    rw [IsParent, if_pos rfl] at hparent
    exact (mem_unique hp hup).trans hparent
  · intro d name i p hd he hi hp
    obtain ⟨hdir, hplain, k, hk⟩ := hname hd he
    have hroot := ht.entry_ne_root d k name i hdir hplain hk
    obtain ⟨l, q, hq, hparent, -⟩ := ht.up i hi
    have hup := (ht.dirOk hf hi).child_iff_entry.mpr ⟨l, hq⟩
    obtain rfl := mem_unique hp hup
    -- `d` and the parent both name the directory, which has one name
    rw [IsParent, if_neg hroot] at hparent
    obtain ⟨hpdir, k', name', hplain', hk'⟩ := hparent
    have hone : (p, k') = (d, k) := (ht.named i (names_dir_live hi) hroot).unique
      ⟨hpdir, name', hplain', hk'⟩ ⟨hdir, name, hplain, hk⟩
    exact (Prod.mk.inj hone).1
  · intro d name i hd he
    obtain ⟨hdir, hplain, k, hk⟩ := hname hd he
    exact ht.entry_live d k name i hdir hplain hk
  · intro d name i hd he
    obtain ⟨hdir, hplain, k, hk⟩ := hname hd he
    exact ht.entry_ne_root d k name i hdir hplain hk
  · intro d d' name name' i hd hd' he he'
    obtain ⟨hdir, hplain, k, hk⟩ := hname hd he
    obtain ⟨hdir', hplain', k', hk'⟩ := hname hd' he'
    have hone : (d, k) = (d', k') := (ht.named i (ht.entry_live d k name i hdir hplain hk)
      (ht.entry_ne_root d k name i hdir hplain hk)).unique
      ⟨hdir, name, hplain, hk⟩ ⟨hdir', name', hplain', hk'⟩
    obtain ⟨rfl, rfl⟩ := Prod.mk.inj hone
    exact ⟨rfl, (Dirent.mk.inj (hk.2.2.symm.trans hk'.2.2)).2⟩

lemma IsTree.sound : c.Sound where
  tree := ht.names_tree hf
  linked d hd := by
    have hdir := (ht.names_tree hf).dir_of_reached hd
    obtain ⟨k, hk, -⟩ := ht.self d hdir
    obtain ⟨l, p, hl, -⟩ := ht.up d hdir
    have hself := (ht.dirOk hf hdir).child_iff_entry.mpr ⟨k, hk⟩
    have hup := (ht.dirOk hf hdir).child_iff_entry.mpr ⟨l, hl⟩
    exact ⟨ne_none_iff_exists'.mpr ⟨d, hself⟩, ne_none_iff_exists'.mpr ⟨p, hup⟩⟩
  dirOk d hd := ht.dirOk hf ((ht.names_tree hf).dir_of_reached hd)
  dense d hd := hf.dense d ((ht.names_tree hf).dir_of_reached hd)

lemma IsTree.full : c.names.Full := by
  intro i hi hroot
  obtain ⟨⟨d, k⟩, ⟨hdir, name, hplain, hk⟩, -⟩ := ht.named i hi hroot
  exact ⟨d, name, ht.reached hf hdir, (ht.dirOk hf hdir).names_entry_iff.mpr ⟨hplain, k, hk⟩⟩

end OfTree

/-! ### From the graph to the entries -/

section OfSound

variable (hs : c.Sound) (hF : c.names.Full)

include hF in
/-- When nothing is out of reach, every directory is reached. -/
lemma reached_of_full (hd : c.IsDir d) : c.names.Reached d := by
  by_cases hroot : d = rootIno
  · rw [hroot]
    exact .root _
  · obtain ⟨e, name, he, hname⟩ := hF d (names_dir_live hd) hroot
    exact he.step hname hd

include hs

include hF in
lemma Sound.dirsFormed : c.DirsFormed where
  whole d hd := (hs.dirOk d (reached_of_full hF hd)).whole
  size_le d hd := (hs.dirOk d (reached_of_full hF hd)).size_le
  dense d hd := hs.dense d (reached_of_full hF hd)

/-- The parent link of a directory, as an entry. -/
lemma Sound.up_entry {n : ℕ} (hn : c.names.Reach n d) :
    ∃ k p, c.Entry d k dotDot p ∧ c.IsParent d p ∧
      (d = rootIno ∨ ∃ m, n = m + 1 ∧ c.names.Reach m p) := by
  have hok := hs.dirOk d hn.reached
  by_cases hroot : d = rootIno
  · obtain ⟨p, hp⟩ := ne_none_iff_exists'.mp (hs.linked d hn.reached).2
    obtain ⟨k, hk⟩ := hok.child_iff_entry.mp hp
    subst hroot
    exact ⟨k, p, hk, (if_pos rfl).mpr (hs.tree.up_root p hp), .inl rfl⟩
  · obtain ⟨m, p, name, rfl, hm, hname, hup⟩ := hs.tree.up_of_reach hs.linked hn hroot
    obtain ⟨k, hk⟩ := hok.child_iff_entry.mp hup
    obtain ⟨hplain, l, hl⟩ := (hs.dirOk p hm.reached).names_entry_iff.mp hname
    refine ⟨k, p, hk, ?_, .inr ⟨m, rfl, hm⟩⟩
    rw [IsParent, if_neg hroot]
    exact ⟨hs.tree.dir_of_reached hm.reached, l, name, hplain, hl⟩

/-- Every step upwards is one nearer to the root. -/
lemma Sound.climbs {n : ℕ} (hn : c.names.Reach n d) : c.ClimbsToRoot d := by
  induction n generalizing d with
  | zero =>
    cases hn
    exact .root
  | succ n ih =>
    obtain ⟨k, p, hk, -, rfl | ⟨m, hm, hp⟩⟩ := hs.up_entry hn
    · exact .root
    · obtain rfl := Nat.succ.inj hm
      exact .up hk (ih hp)

include hF in
/-- The graph gives the entries. -/
lemma Sound.isTree : c.IsTree := by
  have hreach : ∀ {d}, c.IsDir d → c.names.Reached d := fun hd => reached_of_full hF hd
  have hok : ∀ {d}, c.IsDir d → c.DirOk d := fun hd => hs.dirOk _ (hreach hd)
  have hentry : ∀ {d k name i}, c.IsDir d → Plain name → c.Entry d k name i →
      c.names.entry d name = some i := fun hd hplain hk =>
    (hok hd).names_entry_iff.mpr ⟨hplain, _, hk⟩
  refine ⟨hs.tree.root_dir, ?_, ?_, ?_, ?_, ?_, ?_, ?_⟩
  · intro d hd
    obtain ⟨i, hi⟩ := ne_none_iff_exists'.mp (hs.linked d (hreach hd)).1
    obtain rfl := hs.tree.self_eq d i (hreach hd) hi
    obtain ⟨k, hk⟩ := (hok hd).child_iff_entry.mp hi
    exact ⟨k, hk, fun k' i' hk' => (hok hd).entry_unique hk' hk⟩
  · intro d hd
    obtain ⟨n, hn⟩ := hreach hd
    obtain ⟨k, p, hk, hparent, -⟩ := hs.up_entry hn
    exact ⟨k, p, hk, hparent, fun k' i' hk' => (hok hd).entry_unique hk' hk⟩
  · intro d j k name i i' hd hj hk
    exact (hok hd).entry_unique hj hk
  · intro d k name i hd hplain hk
    exact hs.tree.entry_live d name i (hreach hd) (hentry hd hplain hk)
  · intro d k name i hd hplain hk
    exact hs.tree.entry_ne_root d name i (hreach hd) (hentry hd hplain hk)
  · intro i hi hroot
    obtain ⟨d, name, hd, hname⟩ := hF i hi hroot
    have hdir := hs.tree.dir_of_reached hd
    obtain ⟨hplain, k, hk⟩ := (hok hdir).names_entry_iff.mp hname
    refine ⟨(d, k), ⟨hdir, name, hplain, hk⟩, ?_⟩
    rintro ⟨d', k'⟩ ⟨hdir', name', hplain', hk'⟩
    obtain ⟨rfl, rfl⟩ := hs.tree.once d' d name' name i (hreach hdir') hd
      (hentry hdir' hplain' hk') hname
    exact Prod.ext rfl ((hok hdir).entry_unique hk' hk)
  · intro d hd
    obtain ⟨n, hn⟩ := hreach hd
    exact hs.climbs hn

end OfSound

/-- The tree property is soundness with nothing out of reach. -/
lemma isTree_iff : c.DirsFormed ∧ c.IsTree ↔ c.Sound ∧ c.names.Full :=
  ⟨fun ⟨hf, ht⟩ => ⟨ht.sound hf, ht.full hf⟩, fun ⟨hs, hF⟩ => ⟨hs.dirsFormed hF, hs.isTree hF⟩⟩

end View

/-- The namespace is a tree after every run that makes new names only in directories. -/
theorem run_isTree {v v' : Volume} {ls : List WfsEvent} (hv : Healthy v)
    (hc : v.view.Consistent) (hf : v.view.DirsFormed) (ht : v.view.IsTree)
    (hrun : Run (wfsStep fun v call => call.InDirs v) v ls v') : v'.view.IsTree := by
  have hstart : Intact v ∧ v.view.names.Full := ⟨⟨hv, hc, ht.sound hf⟩, ht.full hf⟩
  obtain ⟨h, hF⟩ := hrun.invariant (P := fun v => Intact v ∧ v.view.names.Full)
    (fun s l s' hs hstep => by
      obtain ⟨hcalm, hallowed, rfl⟩ := hstep
      have hs' := hs.1.setEnv hcalm
      exact ⟨exec_intact hs' hallowed.onFiles, exec_full hs' hs.2 hallowed⟩) hstart
  exact h.sound.isTree hF

/-- The small volume: a file moves into the subdirectory. -/
def moveA : WfsEvent :=
  ⟨Mkwfs.sampleEnv, .rename ⟨ascii "/a", nul_notMem_ascii_a⟩ ⟨ascii "/d/a", by decide⟩⟩

lemma resolveParent_moveA : resolveParent Mkwfs.sample (ascii "/d/a") = .ok (4, ascii "a") := by
  decide +kernel

theorem run_isTree_sample :
    ∃ v', Run (wfsStep fun v call => call.InDirs v) Mkwfs.sample [moveA] v' ∧ v'.view.IsTree := by
  obtain ⟨hv, hc, hs, hF⟩ := sample_intact
  have hallowed : moveA.call.InDirs { Mkwfs.sample with env := moveA.env } := by
    intro d name hd
    rw [show moveA.env = Mkwfs.sampleEnv from rfl, sample_setEnv] at hd
    obtain ⟨rfl, rfl⟩ := Prod.mk.inj (Except.ok.inj (resolveParent_moveA.symm.trans hd))
    exact Mkwfs.sample_isDir
  have hrun : Run (wfsStep fun v call => call.InDirs v) Mkwfs.sample [moveA] _ :=
    .cons (wfsStep_exec (fun _ _ => rfl) hallowed) (.nil _)
  exact ⟨_, hrun, run_isTree hv hc (hs.dirsFormed hF) (hs.isTree hF) hrun⟩

end Wos.Wfs
