import Wos.Wfs.Paths

/-!
# Changing the namespace, one step at a time

The operations of `kernel/fs/wfs.c` that change the namespace are sequences of a few steps: an
entry is added to a directory or removed from it, an inode is claimed or released. This module
says what each step does to the names that directories hold. Every step leaves the regular files
alone, with one exception: `dir_add` does not look at the type of what it is given, so an entry can
be written into a file.

## Main definitions

* `Shows`: which names the directories hold afterwards, and which file may have changed;
* `rebind`: one name of one directory is bound anew;
* `Allocs`, `Frees`: an inode is claimed or released.

## Main results

* `dirAdd_shows`, `dirRemove_shows`: the two changes to a directory;
* `inodeAlloc_allocs`, `release_frees`, `inodeFree_frees`: the life of an inode;
* `Shows.sound`: unchanged names keep the namespace sound.
-/

namespace Wos.Wfs

/-- The names with `name` of directory `d` bound to `o`. -/
def rebind (f : ℕ → Name → Option ℕ) (d : ℕ) (name : Name) (o : Option ℕ) (e : ℕ) (n : Name) :
    Option ℕ :=
  if e = d ∧ n = name then o else f e n

lemma rebind_self (f : ℕ → Name → Option ℕ) (d : ℕ) (name : Name) (o : Option ℕ) :
    rebind f d name o d name = o := if_pos ⟨rfl, rfl⟩

variable {d : ℕ} {name : Name}

variable {e type : ℕ} {n : Name} {o : Option ℕ}

lemma rebind_of_not (f : ℕ → Name → Option ℕ) (o : Option ℕ)
    (h : ¬ (e = d ∧ n = name)) : rebind f d name o e n = f e n := if_neg h

lemma rebind_congr {f g : ℕ → Name → Option ℕ} (o : Option ℕ)
    (h : f e n = g e n) : rebind f d name o e n = rebind g d name o e n := by
  rw [rebind, rebind, h]

/-- From `c` to `c'` the same inodes are in use, directories come to hold the names `f`, and no
regular file but possibly `w` changes. -/
structure Shows (c c' : View) (w : ℕ) (f : ℕ → Name → Option ℕ) : Prop where
  consistent : c'.Consistent
  /-- No inode comes or goes. -/
  live_iff : ∀ j, c'.Live j ↔ c.Live j
  dir_iff : ∀ j, c'.names.dir j ↔ c.names.dir j
  type_eq : ∀ j, c.Live j → (c'.inodes j).type = (c.inodes j).type
  /-- Directories stay well formed. -/
  dirOk : ∀ e, c.names.dir e → c.DirOk e → c'.DirOk e
  /-- They get no holes. -/
  dense : ∀ e, c.names.dir e → c.Dense e → c'.Dense e
  /-- Directories hold the names `f`. -/
  child_eq : ∀ e n, c.names.dir e → c'.child e n = f e n
  /-- Files but `w` stay. -/
  file : ∀ j, c.Live j → ¬ c.names.dir j → j ≠ w → Agree c c' j

namespace Shows

variable {c c' c'' : View} {w : ℕ} {f g : ℕ → Name → Option ℕ}

lemma trans (h : Shows c c' w f) (h' : Shows c' c'' w g) : Shows c c'' w g where
  consistent := h'.consistent
  live_iff j := (h'.live_iff j).trans (h.live_iff j)
  dir_iff j := (h'.dir_iff j).trans (h.dir_iff j)
  type_eq j hl := (h'.type_eq j ((h.live_iff j).mpr hl)).trans (h.type_eq j hl)
  dirOk e he hd := h'.dirOk e ((h.dir_iff e).mpr he) (h.dirOk e he hd)
  dense e he hd := h'.dense e ((h.dir_iff e).mpr he) (h.dense e he hd)
  child_eq e n he := h'.child_eq e n ((h.dir_iff e).mpr he)
  file j hl hd hw := (h.file j hl hd hw).trans
    (h'.file j ((h.live_iff j).mpr hl) (fun hd' => hd ((h.dir_iff j).mp hd')) hw)

lemma congr (h : Shows c c' w f) (hfg : ∀ e n, c.names.dir e → f e n = g e n) : Shows c c' w g :=
  { h with child_eq := fun e n he => (h.child_eq e n he).trans (hfg e n he) }

/-- One more name is bound. -/
theorem rebind (h : Shows c c' w f)
    (h' : Shows c' c'' w (rebind c'.child d name o)) : Shows c c'' w (Wfs.rebind f d name o) :=
  (h.trans h').congr fun e n he => rebind_congr o (h.child_eq e n he)

/-- A change that touches directories only does not single out a file. -/
lemma of_dir (h : Shows c c' d f) (hd : c.names.dir d) (w : ℕ) : Shows c c' w f :=
  { h with file := fun j hl hj _ => h.file j hl hj fun hjd => hj (hjd ▸ hd) }

lemma same (h : Shows c c' w c.child) : c.names.Same c'.names where
  root_eq := rfl
  live_iff := h.live_iff
  dir_iff := h.dir_iff
  entry_eq e n he := View.names_entry_congr fun _ _ => h.child_eq e n he
  self_eq e he := h.child_eq e dot he
  up_eq e he := h.child_eq e dotDot he

lemma sound (h : Shows c c' w c.child) (hs : c.Sound) : c'.Sound where
  tree := h.same.shrinks.tree hs.tree
  linked := h.same.linked hs.tree hs.linked
  dirOk d hd := by
    have hd' := (h.same.reached_iff hs.tree).mp hd
    exact h.dirOk d (hs.tree.dir_of_reached hd') (hs.dirOk d hd')
  dense d hd := by
    have hd' := (h.same.reached_iff hs.tree).mp hd
    exact h.dense d (hs.tree.dir_of_reached hd') (hs.dense d hd')

end Shows

/-! ## Writing to one inode -/

namespace Touches

variable {c c' : View} {d : ℕ} (h : Touches d c c')

include h

lemma dir_iff (j : ℕ) : c'.names.dir j ↔ c.names.dir j := by
  change c'.Valid j ∧ _ ↔ c.Valid j ∧ _
  rw [View.Valid, View.Valid, h.totalInodes_eq, h.type_eq_all]

/-- One name of one directory changes. -/
lemma shows_bind (hd : c.names.dir d) (hb : Binds c c' d name o)
    (w : ℕ) : Shows c c' w (rebind c.child d name o) := by
  refine ⟨h.consistent, h.live_iff, h.dir_iff, fun j _ => h.type_eq_all j, fun e he hok => ?_,
    fun e he hde => ?_, fun e n he => ?_, fun j hl hj _ => h.agree (fun hjd => hj (hjd ▸ hd)) hl⟩
  · by_cases hed : e = d
    · exact hed ▸ hb.dirOk
    · exact (h.agree hed (View.names_dir_live he)).dirOk hok
  · by_cases hed : e = d
    · subst hed
      exact hb.dense hde
    · exact (h.agree hed (View.names_dir_live he)).dense hde
  · by_cases hed : e = d
    · subst hed
      rw [hb.child_eq n, rebind]
      simp only [true_and]
    · rw [rebind_of_not _ _ fun hen => hed hen.1]
      exact (h.agree hed (View.names_dir_live he)).child_eq n

/-- The inode written to is a file, or its contents are what they were. -/
lemma shows_still (hd : c.names.dir d → Agree c c' d) : Shows c c' d c.child := by
  have hagree : ∀ e, c.names.dir e → Agree c c' e := by
    intro e he
    by_cases hed : e = d
    · subst hed
      exact hd he
    · exact h.agree hed (View.names_dir_live he)
  exact ⟨h.consistent, h.live_iff, h.dir_iff, fun j _ => h.type_eq_all j,
    fun e he => (hagree e he).dirOk, fun e he => (hagree e he).dense, fun e n he => (hagree e he).child_eq n,
    fun j hl _ hjd => h.agree hjd hl⟩

end Touches

variable {i : ℕ}

section Steps

variable {v : Volume} (hv : Healthy v) (hc : v.view.Consistent) {d : ℕ}

include hv hc

/-- `dir_add` of a new name binds it or changes no name. What is given as a directory need not be
one; a file is written to without its name being looked up by anybody. -/
theorem dirAdd_shows (hl : v.view.Live d) {ino : ℕ} (hfits : Dirent.Fits ⟨ino, name⟩)
    (hino : ino ≠ 0) (hd : v.view.names.dir d → v.view.DirOk d ∧ v.view.child d name = none) :
    ∃ r v', dirAdd v d name ino = (r, v') ∧ v'.frame = v.frame ∧
      ((r = .ok () ∧ Shows v.view v'.view d (rebind v.view.child d name (some ino))) ∨
        ((∃ e, r = .error e) ∧ Shows v.view v'.view d v.view.child ∧
          (v.view.names.dir d → AddFailed v.view v'.view d))) := by
  by_cases hdir : v.view.names.dir d
  · obtain ⟨hok, hnew⟩ := hd hdir
    obtain ⟨r, v', heq, hframe, htouch, -, ⟨hr, hb, -⟩ | ⟨hr, hfailed⟩⟩ :=
      dirAdd_spec hv hc hl hok hfits hino hnew
    · exact ⟨r, v', heq, hframe, .inl ⟨hr, htouch.shows_bind hdir hb d⟩⟩
    · exact ⟨r, v', heq, hframe,
        .inr ⟨hr, htouch.shows_still fun _ => hfailed.agree, fun _ => hfailed⟩⟩
  · obtain ⟨r, v', heq, hframe, htouch⟩ := dirAdd_touches hv hc hl name ino
    have hshows := htouch.shows_still fun h => absurd h hdir
    refine ⟨r, v', heq, hframe, ?_⟩
    cases r with
    | ok u =>
      refine .inl ⟨rfl, hshows.congr fun e n he => ?_⟩
      rw [rebind_of_not]
      rintro ⟨rfl, -⟩
      exact hdir he
    | error e => exact .inr ⟨⟨e, rfl⟩, hshows, fun h => absurd h hdir⟩

/-- `dir_remove` of a name that is there. -/
theorem dirRemove_shows (hdir : v.view.names.dir d) (hok : v.view.DirOk d)
    (h : v.view.child d name = some i) :
    ∃ v', dirRemove v d name = (.ok (), v') ∧ v'.frame = v.frame ∧
      (∀ w, Shows v.view v'.view w (rebind v.view.child d name none)) ∧
      v'.view.findEntry d (·.ino = 0) ≠ none := by
  obtain ⟨v', heq, hframe, htouch, hb, hfree⟩ :=
    dirRemove_spec hv hc (View.names_dir_live hdir) hok h
  exact ⟨v', heq, hframe, htouch.shows_bind hdir hb, hfree⟩

end Steps

/-! ## The life of an inode -/

/-- Inode `i` is released; every other file is as it was. -/
structure Frees (c c' : View) (i : ℕ) : Prop where
  consistent : c'.Consistent
  live_iff : ∀ j, c'.Live j ↔ c.Live j ∧ j ≠ i
  dir_iff : ∀ j, c'.names.dir j ↔ c.names.dir j ∧ j ≠ i
  agree : ∀ j, j ≠ i → Agree c c' j

/-- Inode `i`, which was free, is claimed for an empty file of the type. -/
structure Allocs (c c' : View) (i type : ℕ) : Prop where
  consistent : c'.Consistent
  /-- The number is that of an inode. -/
  valid : c.Valid i
  /-- It was free. -/
  fresh : ¬ c.Live i
  type_eq : (c'.inodes i).type = type
  size_eq : (c'.inodes i).size = 0
  /-- It has no blocks. -/
  bare : (c'.inodes i).Bare
  /-- It alone comes. -/
  live_iff : ∀ j, c'.Live j ↔ c.Live j ∨ j = i
  dir_iff : ∀ j, j ≠ i → (c'.names.dir j ↔ c.names.dir j)
  /-- Other files stay. -/
  agree : ∀ j, j ≠ i → Agree c c' j
  slot_eq : ∀ j p, j ≠ i → c'.slot j p = c.slot j p
  freeBlocks_eq : c'.freeBlocks = c.freeBlocks

lemma Allocs.live {c c' : View} (h : Allocs c c' i type) : c'.Live i :=
  (h.live_iff i).mpr (.inr rfl)

lemma Emptied.dir_iff {c c' : View} (h : Emptied i c c') (j : ℕ) :
    c'.names.dir j ↔ c.names.dir j := by
  change c'.Valid j ∧ _ ↔ c.Valid j ∧ _
  rw [View.Valid, View.Valid, h.totalInodes_eq, h.type_eq_all]

/-- Any empty inode may take the place of a free one. -/
lemma Allocs.of_setInode {c : View} (hc : c.Consistent) (hi : c.Valid i)
    (hfree : (c.inodes i).type = typeFree) {n : Inode} (hbare : n.Bare) (hsize : n.size = 0)
    (htype : n.type ≠ typeFree) :
    Allocs c ((c.setInode i n).setFreeInodes (dec32 c.freeInodes)) i n.type := by
  have hother : ∀ j, j ≠ i → (c.setInode i n).inodes j = c.inodes j := fun j hj =>
    c.setInode_inodes_of_ne hj n
  have hself : (c.setInode i n).inodes i = n := c.setInode_inodes_self i n
  refine ⟨hc.allocInode hi hfree hbare htype, hi, fun hl => hl.2 hfree, congrArg _ hself,
    (congrArg _ hself).trans hsize, hself.symm ▸ hbare, fun j => ?_, fun j hj => ?_,
    fun j hj => .of_eq rfl (hother j hj), fun j p hj => View.slot_congr (hother j hj) rfl p, rfl⟩
  · change c.Valid j ∧ ((c.setInode i n).inodes j).type ≠ typeFree ↔ _
    by_cases hj : j = i
    · subst hj
      rw [hself]
      exact iff_of_true ⟨hi, htype⟩ (.inr rfl)
    · rw [hother j hj]
      exact (or_iff_left hj).symm
  · change c.Valid j ∧ ((c.setInode i n).inodes j).type = typeDir ↔ _
    rw [hother j hj]
    exact Iff.rfl

section Inodes

variable {v : Volume} (hv : Healthy v) (hc : v.view.Consistent)

include hv hc

/-- `inode_free` of an inode without blocks. -/
theorem inodeFree_frees (hl : v.view.Live i) (hempty : ∀ p, v.view.slot i p = 0) :
    (inodeFree v i).frame = v.frame ∧ Frees v.view (inodeFree v i).view i := by
  obtain ⟨hview, hframe⟩ := inodeFree_spec hv hl.1
  have hother : ∀ j, j ≠ i → (inodeFree v i).view.inodes j = v.view.inodes j := fun j hj => by
    rw [hview]
    exact v.view.setInode_inodes_of_ne hj _
  have hself : (inodeFree v i).view.inodes i = Inode.zero := by
    rw [hview]
    exact v.view.setInode_inodes_self i _
  have hvalid : ∀ j, (inodeFree v i).view.Valid j ↔ v.view.Valid j := fun j => by
    rw [hview]
    exact Iff.rfl
  refine ⟨hframe, ?_, fun j => ?_, fun j => ?_, fun j hj => .of_eq ?_ (hother j hj)⟩
  · rw [hview]
    exact hc.freeInode hl.1 hl.2 hempty
  · by_cases hj : j = i
    · subst hj
      rw [View.Live, hself]
      exact iff_of_false (fun h => h.2 rfl) fun h => h.2 rfl
    · rw [View.Live, hvalid, hother j hj]
      exact (and_iff_left hj).symm
  · change _ ∧ _ ↔ (_ ∧ _) ∧ _
    by_cases hj : j = i
    · subst hj
      rw [hself]
      exact iff_of_false (fun h => absurd h.2 (by decide)) fun h => h.2 rfl
    · rw [hvalid, hother j hj]
      exact (and_iff_left hj).symm
  · rw [hview]
    rfl

/-- `wfs_truncate` followed by `inode_free`. -/
theorem release_frees (hl : v.view.Live i) :
    (inodeFree (truncate v i).2 i).frame = v.frame ∧
      Frees v.view (inodeFree (truncate v i).2 i).view i := by
  obtain ⟨v1, htrunc, hframe1, hempty⟩ := truncate_spec hv hc hl
  rw [htrunc]
  have hlive : ∀ j, v1.view.Live j ↔ v.view.Live j := hempty.live_iff
  obtain ⟨hframe, hfrees⟩ := inodeFree_frees (hv.of_frame hframe1) hempty.consistent
    ((hlive i).mpr hl) (View.slot_bare hempty.bare)
  refine ⟨hframe.trans hframe1, hfrees.consistent, fun j => ?_, fun j => ?_, fun j hj =>
    (hempty.agree hj).trans (hfrees.agree j hj)⟩
  · rw [hfrees.live_iff, hlive]
  · rw [hfrees.dir_iff, hempty.dir_iff]

/-- `inode_alloc` claims a free inode or finds none. -/
theorem inodeAlloc_allocs (ht : type < 65536) (ht0 : type ≠ typeFree) :
    (inodeAlloc v type = (.error .ENOSPC, v) ∧ ∀ i, v.view.Valid i → v.view.Live i) ∨
      ∃ i v', inodeAlloc v type = (.ok i, v') ∧ v'.frame = v.frame ∧
        Allocs v.view v'.view i type := by
  rcases inodeAlloc_spec hv ht with ⟨heq, hall⟩ | ⟨i, v', heq, hi, hfree, hview, hframe⟩
  · exact .inl ⟨heq, fun i hi => ⟨hi, hall i hi⟩⟩
  · have ha := Allocs.of_setInode hc hi hfree (freshInode_bare v type) rfl ht0
    rw [← hview] at ha
    exact .inr ⟨i, v', heq, hframe, ha⟩

end Inodes

end Wos.Wfs
