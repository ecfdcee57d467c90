import Wos.Wfs.Entries

/-!
# Listing a directory

`wfs_readdir` of `kernel/fs/wfs.c` returns one entry at a time, from a cursor that is a position in
the directory. Called again with the cursor it left, until it returns nothing, it goes through the
entries that are in use, in their order.

## Main definitions

* `readdir`: one call;
* `Lists`: what repeated calls return, from a cursor on;
* `View.listing`: the entries of a directory.

## Main results

* `lists_spec`: the calls return every entry in use, once and in order.
-/

namespace Wos.Wfs

open List

/-- What `wfs_readdir` tells of an entry, a `wdirent_t`. -/
structure Listed where
  ino : ℕ
  type : ℕ
  name : Name
  deriving DecidableEq

/-- The type of an inode, `W_FT_FILE` if it cannot be read. -/
def typeOf (v : Volume) (ino : ℕ) : ℕ :=
  match readInode v ino with
  | .error _ => typeFile
  | .ok n => n.type

/-- `wfs_readdir`: the next entry in use, if there is one, and the cursor. -/
def readdir (v : Volume) (ino cursor : ℕ) : Except Errno (Option Listed × ℕ) :=
  match readInode v ino with
  | .error e => .error e
  | .ok dir =>
    if dir.type ≠ typeDir then .error .ENOTDIR
    else
      match dirScan v ino dir.size (·.ino ≠ 0) (dir.size / 32 + 1) (cursor - cursor % 32)
          v.env.junk with
      | none => .ok (none, dir.size)
      | some (off, e) => .ok (some ⟨e.ino, typeOf v e.ino, e.name⟩, off + 32)

/-- Repeated calls of `wfs_readdir`, from the cursor on and until nothing is returned. -/
inductive Lists (v : Volume) (ino : ℕ) : ℕ → List Listed → Prop
  | done {cursor cursor' : ℕ} : readdir v ino cursor = .ok (none, cursor') → Lists v ino cursor []
  | next {cursor cursor' : ℕ} {l : Listed} {ls : List Listed} :
      readdir v ino cursor = .ok (some l, cursor') → Lists v ino cursor' ls →
      Lists v ino cursor (l :: ls)

/-- Where the calls return the same, so does the listing. -/
lemma Lists.congr {v : Volume} {ino cursor cursor' : ℕ} {ls : List Listed}
    (h : readdir v ino cursor = readdir v ino cursor') (hls : Lists v ino cursor' ls) :
    Lists v ino cursor ls := by
  cases hls with
  | done hr => exact .done (h.trans hr)
  | next hr hls => exact .next (h.trans hr) hls

/-- The entries of a directory, free ones included. -/
def View.listing (c : View) (d : ℕ) : List Dirent :=
  (List.range (c.entryCount d)).map (c.dirent d)

lemma Agree.listing_eq {c c' : View} {i : ℕ} (h : Agree c c' i) : c'.listing i = c.listing i := by
  rw [View.listing, View.listing, h.entryCount_eq]
  exact map_congr_left fun k _ => h.dirent_eq k

/-- An entry that is written at the end is the last one. -/
lemma EntrySet.listing_eq {c c' : View} {d : ℕ} {e : Dirent}
    (h : EntrySet c c' d (c.entryCount d) e) : c'.listing d = c.listing d ++ [e] := by
  rw [View.listing, View.listing, h.entryCount_eq, max_eq_right (Nat.le_succ _), range_succ,
    map_append, map_singleton, h.self]
  congr 1
  refine map_congr_left fun k hk => h.other k ?_
  exact Nat.ne_of_lt (mem_range.mp hk)

section List

variable {v : Volume} (hv : Healthy v) (hc : v.view.Consistent) {d : ℕ} (hl : v.view.Live d)
  (hd : v.view.DirOk d) (htype : (v.view.inodes d).type = typeDir)

include hv hc hl hd htype

lemma readdir_spec {j : ℕ} (hj : j ≤ v.view.entryCount d) :
    readdir v d (32 * j) =
      match (List.range' j (v.view.entryCount d - j)).find?
          fun k => (v.view.dirent d k).ino ≠ 0 with
      | none => .ok (none, (v.view.inodes d).size)
      | some k => .ok (some ⟨(v.view.dirent d k).ino, typeOf v (v.view.dirent d k).ino,
          (v.view.dirent d k).name⟩, 32 * (k + 1)) := by
  rw [readdir, readInode_ok hv hl.1]
  dsimp only
  rw [if_neg (not_not.mpr htype), Nat.mul_mod_right, Nat.sub_zero,
    dirScan_spec hv hc hl hd.whole hd.size_le _ _ hj (by rw [View.entryCount]; omega)]
  cases (List.range' j (v.view.entryCount d - j)).find?
    fun k => decide ((v.view.dirent d k).ino ≠ 0) <;> rfl

/-- From entry `j` on, the calls return the entries in use. -/
lemma lists_from (m : ℕ) {j : ℕ} (hj : j + m = v.view.entryCount d) :
    Lists v d (32 * j) ((((List.range' j m).map (v.view.dirent d)).filter (·.ino ≠ 0)).map
      fun e => ⟨e.ino, typeOf v e.ino, e.name⟩) := by
  have hspec := readdir_spec hv hc hl hd htype (j := j) (by omega)
  rw [show v.view.entryCount d - j = m by omega] at hspec
  induction m generalizing j with
  | zero => exact .done hspec
  | succ m ih =>
    have hspec' := readdir_spec hv hc hl hd htype (j := j + 1) (by omega)
    rw [show v.view.entryCount d - (j + 1) = m by omega] at hspec'
    have hrest := ih (j := j + 1) (by omega) hspec'
    rw [List.range'_succ, List.find?_cons] at hspec
    rw [List.range'_succ, map_cons, filter_cons]
    by_cases hfree : (v.view.dirent d j).ino = 0
    · -- a free entry is passed over
      rw [if_neg (by simpa using hfree)]
      refine hrest.congr (hspec.trans ?_)
      rw [hspec', decide_eq_false (not_not.mpr hfree)]
    · rw [if_pos (by simpa using hfree), map_cons]
      rw [decide_eq_true hfree] at hspec
      exact .next hspec hrest

/-- `wfs_readdir`, called until it returns nothing, lists the entries that are in use. -/
theorem lists_spec : Lists v d 0 (((v.view.listing d).filter (·.ino ≠ 0)).map
    fun e => ⟨e.ino, typeOf v e.ino, e.name⟩) := by
  have h := lists_from hv hc hl hd htype (v.view.entryCount d) (Nat.zero_add _)
  rw [← range_eq_range'] at h
  exact h

end List

end Wos.Wfs
