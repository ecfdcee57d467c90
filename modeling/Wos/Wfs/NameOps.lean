import Wos.Wfs.Namespace

/-!
# `wfs_create`, `wfs_unlink` and `wfs_rename`

What the three operations do to the namespace, on a device that never reports an error: they fail
and change no name, or they add, remove or move one node. A rename onto an existing file first
removes that file and then moves, and the move may still fail.

## Main definitions

* `Removed`, `Created`, `Moved`: the effects on a volume;
* `UnlinkResult`, `CreateResult`, `RenameResult`: how the operations end.

## Main results

* `unlink_spec`, `create_spec`, `rename_spec`: the operations have these effects;
* `Removed.sound`, `Created.sound`, `Moved.sound`: the effects keep the namespace sound.
-/

namespace Wos.Wfs

open View Option Nat

/-! ## Removing a node -/

/-- Inode `i`, which names nothing itself, is removed together with its entry in `d`. -/
structure Removed (c c' : View) (d : ℕ) (name : Name) (i : ℕ) : Prop where
  consistent : c'.Consistent
  /-- The node goes from the tree. -/
  removes : c.names.Removes c'.names d name i
  /-- It named nothing. -/
  leaf : c.names.dir i → ∀ n, c.names.entry i n = none
  /-- Other directories stay well formed. -/
  dirOk : ∀ e, c.names.dir e → e ≠ i → c.DirOk e → c'.DirOk e
  /-- They get no holes. -/
  dense : ∀ e, c.names.dir e → e ≠ i → c.Dense e → c'.Dense e
  /-- Other files stay. -/
  file : ∀ j, c.Live j → ¬ c.names.dir j → j ≠ i → Agree c c' j

namespace Removed

variable {c c' : View} {d i : ℕ} {name : Name}

/-- The entry is erased and then the inode released. -/
lemma of_steps {c1 : View} {w : ℕ} (hs : c.Sound) (hd : c.names.Reached d)
    (hname : c.names.entry d name = some i) (hleaf : c.names.dir i → ∀ n, c.names.entry i n = none)
    (h1 : Shows c c1 w (rebind c.child d name none)) (hw : c.Live w → ¬ c.names.dir w → w = i)
    (h2 : Frees c1 c' i) : Removed c c' d name i := by
  obtain ⟨hdot, hdotDot, -⟩ := names_entry_eq_some hname
  have hchild : ∀ e n, c.names.dir e → e ≠ i → c'.child e n = rebind c.child d name none e n :=
    fun e n he hei => ((h2.agree e hei).child_eq n).trans (h1.child_eq e n he)
  refine ⟨h2.consistent, ⟨hd, hname, rfl, fun j => ?_, fun j => ?_, ?_, ?_, ?_, ?_⟩, hleaf, ?_, ?_,
    fun j hl hj hji => ?_⟩
  · exact (h2.live_iff j).trans (and_congr_left fun _ => h1.live_iff j)
  · exact (h2.dir_iff j).trans (and_congr_left fun _ => h1.dir_iff j)
  · have hdi : d ≠ i := (hs.tree.entry_ne_self hd hname).symm
    rw [names_entry hdot hdotDot, hchild d name (hs.tree.dir_of_reached hd) hdi, rebind_self]
  · intro e n he hei hen
    exact names_entry_congr fun _ _ => (hchild e n he hei).trans (rebind_of_not _ _ hen)
  · intro e he hei
    exact (hchild e dot he hei).trans (rebind_of_not _ _ fun hen => hdot hen.2.symm)
  · intro e he hei
    exact (hchild e dotDot he hei).trans (rebind_of_not _ _ fun hen => hdotDot hen.2.symm)
  · exact fun e he hei hok => (h2.agree e hei).dirOk (h1.dirOk e he hok)
  · exact fun e he hei hde => (h2.agree e hei).dense (h1.dense e he hde)
  · -- the only file that could have been written to is the one removed
    have hjw : j ≠ w := by
      rintro rfl
      exact hji (hw hl hj)
    exact (h1.file j hl hj hjw).trans (h2.agree j hji)

variable (h : Removed c c' d name i) (hs : c.Sound)

include h hs

lemma sound : c'.Sound where
  tree := h.removes.tree hs.tree
  linked := h.removes.linked hs.tree hs.linked
  dirOk e he := by
    obtain ⟨he', hei⟩ := h.removes.reached_back hs.tree he
    exact h.dirOk e (hs.tree.dir_of_reached he') hei (hs.dirOk e he')
  dense e he := by
    obtain ⟨he', hei⟩ := h.removes.reached_back hs.tree he
    exact h.dense e (hs.tree.dir_of_reached he') hei (hs.dense e he')

end Removed

/-- How `wfs_unlink` ends: it is refused, or removes what the path names. -/
inductive UnlinkResult (v : Volume) (path : CString) : Except Errno Unit → Volume → Prop
  | refused (e : Errno) : UnlinkResult v path (.error e) v
  | removed {v' : Volume} {parent : ℕ} {name : Name} {i : ℕ} :
      resolveParent v path.1 = .ok (parent, name) → v'.frame = v.frame →
      Removed v.view v'.view parent name i → UnlinkResult v path (.ok ()) v'

variable {i : ℕ}

section Unlink

variable {v : Volume} (hv : Healthy v) (hc : v.view.Consistent) (hs : v.view.Sound)

include hv hc hs

/-- A directory that is found empty names nothing. -/
lemma entry_eq_none_of_dirIsEmpty (hi : v.view.names.Reached i) (hempty : dirIsEmpty v i = true)
    (n : Name) : v.view.names.entry i n = none := by
  have hlive := names_dir_live (hs.tree.dir_of_reached hi)
  have hnone := (dirIsEmpty_spec hv hc hlive (hs.dirOk i hi)).mp hempty
  by_cases hn : n = dot ∨ n = dotDot
  · exact if_pos hn
  · rw [not_or] at hn
    rw [names_entry hn.1 hn.2]
    exact hnone n hn.1 hn.2

/-- `wfs_unlink` removes a file or an empty directory, or fails and changes no name. -/
theorem unlink_spec (path : CString) :
    ∃ r v', unlink v path.1 = (r, v') ∧ UnlinkResult v path r v' := by
  rw [unlink, if_neg (by simp [hv.mounted])]
  cases hres : resolveParent v path.1 with
  | error e => exact ⟨_, _, rfl, .refused e⟩
  | ok pn =>
    obtain ⟨parent, name⟩ := pn
    obtain ⟨hat, -⟩ := resolveParent_spec hv hc hs hres
    dsimp only
    by_cases hdots : name = dot ∨ name = dotDot
    · rw [if_pos hdots]
      exact ⟨_, _, rfl, .refused _⟩
    rw [if_neg hdots]
    rw [not_or] at hdots
    cases hfind : dirFind v parent name with
    | error e => exact ⟨_, _, rfl, .refused e⟩
    | ok i =>
      obtain ⟨hdir, hreach, hchild, hentry, hlive⟩ :=
        dirFind_entry hv hc hs hat hdots.1 hdots.2 hfind
      dsimp only
      rw [readInode_ok hv hlive.1]
      dsimp only
      by_cases hempty : (v.view.inodes i).type = typeDir ∧ dirIsEmpty v i = false
      · rw [if_pos hempty]
        exact ⟨_, _, rfl, .refused _⟩
      rw [if_neg hempty]
      have hleaf : v.view.names.dir i → ∀ n, v.view.names.entry i n = none := fun hi =>
        entry_eq_none_of_dirIsEmpty hv hc hs (hreach.step hentry hi)
          (Bool.eq_true_of_not_eq_false fun hf => hempty ⟨hi.2, hf⟩)
      obtain ⟨v₁, hremove, hframe1, hremoved, -⟩ :=
        dirRemove_shows hv hc hdir (hs.dirOk parent hreach) hchild
      have hshows := hremoved i
      rw [hremove]
      obtain ⟨hframe, hfrees⟩ := release_frees (hv.of_frame hframe1) hshows.consistent
        ((hshows.live_iff i).mpr hlive)
      exact ⟨_, _, rfl, .removed hres (hframe.trans hframe1)
        (.of_steps hs hreach hentry hleaf hshows (fun _ _ => rfl) hfrees)⟩

end Unlink

/-! ## Adding a node -/

/-- As `Shows`, but inode `i`, which was free, is in use afterwards. -/
structure Extends (c c' : View) (i w : ℕ) (f : ℕ → Name → Option ℕ) : Prop where
  consistent : c'.Consistent
  fresh : ¬ c.Live i
  live_iff : ∀ j, c'.Live j ↔ c.Live j ∨ j = i
  dir_iff : ∀ j, j ≠ i → (c'.names.dir j ↔ c.names.dir j)
  type_eq : ∀ j, c.Live j → (c'.inodes j).type = (c.inodes j).type
  dirOk : ∀ e, c.names.dir e → c.DirOk e → c'.DirOk e
  dense : ∀ e, c.names.dir e → c.Dense e → c'.Dense e
  child_eq : ∀ e n, c.names.dir e → c'.child e n = f e n
  file : ∀ j, c.Live j → ¬ c.names.dir j → j ≠ w → Agree c c' j

variable {d : ℕ}

variable {e : ℕ} {o : Option ℕ}

namespace Extends

variable {c c' c'' : View} {i w : ℕ} {f g : ℕ → Name → Option ℕ}

lemma ne_of_live (h : Extends c c' i w f) {j : ℕ} (hj : c.Live j) : j ≠ i := by
  rintro rfl
  exact h.fresh hj

/-- Old directories stay. -/
lemma dir_forth (h : Extends c c' i w f) (he : c.names.dir e) :
    e ≠ i ∧ c'.names.dir e := by
  have hne := h.ne_of_live (names_dir_live he)
  exact ⟨hne, (h.dir_iff e hne).mpr he⟩

/-- All old files are the same. -/
lemma of_agree (hc : c'.Consistent) (hfresh : ¬ c.Live i)
    (hlive : ∀ j, c'.Live j ↔ c.Live j ∨ j = i)
    (hdir : ∀ j, j ≠ i → (c'.names.dir j ↔ c.names.dir j))
    (hagree : ∀ j, c.Live j → Agree c c' j) (w : ℕ) : Extends c c' i w c.child where
  consistent := hc
  fresh := hfresh
  live_iff := hlive
  dir_iff := hdir
  type_eq j hl := (hagree j hl).type_eq
  dirOk e he := (hagree e (names_dir_live he)).dirOk
  dense e he := (hagree e (names_dir_live he)).dense
  child_eq e n he := (hagree e (names_dir_live he)).child_eq n
  file j hl _ _ := hagree j hl

/-- A new inode is claimed and then written to. -/
lemma of_allocs {type : ℕ} (ha : Allocs c c' i type) (ht : Touches i c' c'') (w : ℕ) :
    Extends c c'' i w c.child := by
  have hne : ∀ j, c.Live j → j ≠ i := fun j hj hji => ha.fresh (hji ▸ hj)
  refine of_agree ht.consistent ha.fresh (fun j => (ht.live_iff j).trans (ha.live_iff j))
    (fun j hj => (ht.dir_iff j).trans (ha.dir_iff j hj)) (fun j hj => ?_) w
  exact (ha.agree j (hne j hj)).trans (ht.agree (hne j hj) ((ha.live_iff j).mpr (.inl hj)))

section

variable (h : Extends c c' i w f)

include h

lemma congr (hfg : ∀ e n, c.names.dir e → f e n = g e n) : Extends c c' i w g :=
  { h with child_eq := fun e n he => (h.child_eq e n he).trans (hfg e n he) }

lemma trans (h' : Shows c' c'' w g) : Extends c c'' i w g where
  consistent := h'.consistent
  fresh := h.fresh
  live_iff j := (h'.live_iff j).trans (h.live_iff j)
  dir_iff j hj := (h'.dir_iff j).trans (h.dir_iff j hj)
  type_eq j hl := (h'.type_eq j ((h.live_iff j).mpr (.inl hl))).trans (h.type_eq j hl)
  dirOk e he hd := h'.dirOk e (h.dir_forth he).2 (h.dirOk e he hd)
  dense e he hd := h'.dense e (h.dir_forth he).2 (h.dense e he hd)
  child_eq e n he := h'.child_eq e n (h.dir_forth he).2
  file j hl hd hw := by
    refine (h.file j hl hd hw).trans (h'.file j ((h.live_iff j).mpr (.inl hl)) ?_ hw)
    exact fun hd' => hd ((h.dir_iff j (h.ne_of_live hl)).mp hd')

/-- One more name is bound. -/
lemma rebind {name : Name} (h' : Shows c' c'' w (rebind c'.child d name o)) :
    Extends c c'' i w (Wfs.rebind f d name o) :=
  (h.trans h').congr fun e n he => rebind_congr o (h.child_eq e n he)

/-- Nothing more is bound. -/
lemma still (h' : Shows c' c'' w c'.child) : Extends c c'' i w f :=
  (h.trans h').congr fun e n he => h.child_eq e n he

end

/-- When the new inode is released again, no name has changed. -/
lemma undone (h : Extends c c' i w c.child) (h' : Frees c' c'' i) : Shows c c'' w c.child where
  consistent := h'.consistent
  live_iff j := by
    rw [h'.live_iff, h.live_iff]
    constructor
    · rintro ⟨hj | hj, hne⟩
      · exact hj
      · exact absurd hj hne
    · exact fun hj => ⟨.inl hj, h.ne_of_live hj⟩
  dir_iff j := by
    rw [h'.dir_iff]
    constructor
    · rintro ⟨hj, hne⟩
      exact (h.dir_iff j hne).mp hj
    · exact fun hj => (h.dir_forth hj).symm
  type_eq j hl := (h'.agree j (h.ne_of_live hl)).type_eq.trans (h.type_eq j hl)
  dirOk e he hd := (h'.agree e (h.dir_forth he).1).dirOk (h.dirOk e he hd)
  dense e he hd := (h'.agree e (h.dir_forth he).1).dense (h.dense e he hd)
  child_eq e n he := ((h'.agree e (h.dir_forth he).1).child_eq n).trans (h.child_eq e n he)
  file j hl hd hw := (h.file j hl hd hw).trans (h'.agree j (h.ne_of_live hl))

end Extends

/-- What a new directory holds: nothing but its two dots. -/
structure HasDots (c : View) (i d : ℕ) : Prop where
  dirOk : c.DirOk i
  dense : c.Dense i
  child_eq : ∀ n, c.child i n =
    if n = dotDot then some d else if n = dot then some i else none

/-- An inode without contents makes a well-formed directory that names nothing. -/
lemma View.dirOk_of_size_eq_zero {c : View} (h : (c.inodes i).size = 0) :
    c.DirOk i ∧ c.Dense i ∧ c.entryCount i = 0 ∧ ∀ n, c.child i n = none := by
  have hcount : c.entryCount i = 0 := by rw [View.entryCount, h]
  refine ⟨⟨by rw [h], by rw [h]; exact zero_le _, fun j k n hj => ?_⟩, fun k hk => ?_, hcount,
    fun n => child_eq_none_iff.mpr fun k hk => ?_⟩
  · rw [hcount] at hj
    exact absurd hj (not_lt_zero j)
  · rw [h] at hk
    exact absurd hk (not_lt_zero k)
  · rw [hcount] at hk
    exact absurd hk (not_lt_zero k)

lemma HasDots.of_binds {c c1 c' : View} (h : (c.inodes i).size = 0)
    (h1 : Binds c c1 i dot (some i)) (h2 : Binds c1 c' i dotDot (some d)) : HasDots c' i d := by
  obtain ⟨-, hdense, -, hnone⟩ := dirOk_of_size_eq_zero h
  refine ⟨h2.dirOk, h2.dense (h1.dense hdense), fun n => ?_⟩
  rw [h2.child_eq, h1.child_eq, hnone]

lemma HasDots.of_shows {c c' : View} {w : ℕ} {name : Name} (h : HasDots c i d)
    (hs : Shows c c' w (rebind c.child d name o)) (hi : c.names.dir i)
    (hid : i ≠ d) : HasDots c' i d where
  dirOk := hs.dirOk i hi h.dirOk
  dense := hs.dense i hi h.dense
  child_eq n := by
    rw [hs.child_eq i n hi, rebind_of_not _ _ fun hin => hid hin.1, h.child_eq]

/-- Inode `i` is new and named by `d`, if that is a directory. -/
structure Created (c c' : View) (d : ℕ) (name : Name) (i : ℕ) : Prop where
  /-- The inode comes, with its name. -/
  extends_ : Extends c c' i d (rebind c.child d name (some i))
  /-- The name was free. -/
  vacant : c.names.dir d → c.names.entry d name = none
  name_ne_dot : c.names.dir d → name ≠ dot
  name_ne_dotDot : c.names.dir d → name ≠ dotDot
  /-- A directory has its two dots. -/
  dots : c'.names.dir i → HasDots c' i d

namespace Created

variable {c c' : View} {d i : ℕ} {name : Name} (h : Created c c' d name i)

include h

/-- The tree with one node more. -/
lemma adds : c.names.Adds c'.names d name i where
  fresh := h.extends_.fresh
  vacant := h.vacant
  root_eq := rfl
  live_iff := h.extends_.live_iff
  dir_iff := h.extends_.dir_iff
  named hd := by
    rw [names_entry (h.name_ne_dot hd) (h.name_ne_dotDot hd), h.extends_.child_eq d name hd,
      rebind_self]
  entry_eq e n he hen := names_entry_congr fun _ _ =>
    (h.extends_.child_eq e n he).trans (rebind_of_not _ _ hen)
  self_eq e he := (h.extends_.child_eq e dot he).trans
    (rebind_of_not _ _ fun hen => h.name_ne_dot (hen.1 ▸ he) hen.2.symm)
  up_eq e he := (h.extends_.child_eq e dotDot he).trans
    (rebind_of_not _ _ fun hen => h.name_ne_dotDot (hen.1 ▸ he) hen.2.symm)
  new_entry hi n := by
    by_cases hdots : n = dot ∨ n = dotDot
    · exact if_pos hdots
    · rw [not_or] at hdots
      rw [names_entry hdots.1 hdots.2, (h.dots hi).child_eq, if_neg hdots.2, if_neg hdots.1]
  new_self hi := (h.dots hi).child_eq dot
  new_up hi := (h.dots hi).child_eq dotDot

lemma sound (hs : c.Sound) : c'.Sound where
  tree := h.adds.tree hs.tree
  linked := h.adds.linked hs.tree hs.linked
  dirOk e he := by
    rcases h.adds.reached_back hs.tree he with he | ⟨rfl, hi, -⟩
    · exact h.extends_.dirOk e (hs.tree.dir_of_reached he) (hs.dirOk e he)
    · exact (h.dots hi).dirOk
  dense e he := by
    rcases h.adds.reached_back hs.tree he with he | ⟨rfl, hi, -⟩
    · exact h.extends_.dense e (hs.tree.dir_of_reached he) (hs.dense e he)
    · exact (h.dots hi).dense

end Created

/-- How `wfs_create` ends: it is refused, it undoes what it began, or there is a new inode. -/
inductive CreateResult (v : Volume) (path : CString) (type : FileType) :
    Except Errno ℕ → Volume → Prop
  | refused (e : Errno) : CreateResult v path type (.error e) v
  | undone (e : Errno) {v' : Volume} {parent : ℕ} {name : Name} :
      resolveParent v path.1 = .ok (parent, name) → v'.frame = v.frame →
      Shows v.view v'.view parent v.view.child → CreateResult v path type (.error e) v'
  | created {v' : Volume} {parent : ℕ} {name : Name} {i : ℕ} :
      resolveParent v path.1 = .ok (parent, name) → v'.frame = v.frame →
      Created v.view v'.view parent name i → (v'.view.inodes i).type = type.code →
      CreateResult v path type (.ok i) v'

/-- The blocks a new node is given: a directory needs one for its two dots. -/
def FileType.ownBlocks : FileType → ℕ
  | .file => 0
  | .dir => 1

lemma Dirent.fits_dot (h : i < 4294967296) : Dirent.Fits ⟨i, dot⟩ :=
  ⟨h, show dot.length ≤ 27 by decide, dot_no_nul⟩

lemma Dirent.fits_dotDot (h : i < 4294967296) : Dirent.Fits ⟨i, dotDot⟩ :=
  ⟨h, show dotDot.length ≤ 27 by decide, dotDot_no_nul⟩

variable {v₁ : Volume}

section Create

variable {v : Volume} (hv : Healthy v) (hc : v.view.Consistent)

include hc in
lemma View.Live.lt (hl : v.view.Live i) : i < 4294967296 :=
  hl.1.2.trans hc.totalInodes_lt

include hv hc

/-- The two dots of a new directory lie in one block, so there is room for both or for neither.
They cost that block. -/
lemma addDots_spec (hl : v.view.Live i) (hsize : (v.view.inodes i).size = 0)
    (hbare : ∀ p, v.view.slot i p = 0) (hd : v.view.Live d) :
    ∃ r v', addDots v i d = (r, v') ∧ v'.frame = v.frame ∧ Touches i v.view v'.view ∧
      ((r = .ok () ∧ HasDots v'.view i d ∧ v'.view.freeBlocks + 1 = v.view.freeBlocks) ∨
        ((∃ e, r = .error e) ∧ (∀ p, v'.view.slot i p = 0) ∧ v.view.freeBlocks = 0)) := by
  obtain ⟨hok, hdense, hcount, hnone⟩ := dirOk_of_size_eq_zero hsize
  rw [addDots]
  obtain ⟨r1, v₁, hadd1, hframe1, htouch1, hother1,
    ⟨rfl, hb1, hone⟩ | ⟨⟨e, rfl⟩, hfailed⟩⟩ :=
    dirAdd_spec hv hc hl hok (Dirent.fits_dot (hl.lt hc)) hl.1.1.ne' (hnone dot)
  · rw [hadd1]
    have hnone1 : v₁.view.child i dotDot = none := by
      rw [hb1.child_eq, if_neg (by decide), hnone]
    obtain ⟨r, v', hadd, hframe, htouch, hother, ⟨rfl, hb, -⟩ | ⟨-, hfailed⟩⟩ :=
      dirAdd_spec (hv.of_frame hframe1) htouch1.consistent ((htouch1.live_iff i).mpr hl) hb1.dirOk
        (Dirent.fits_dotDot (hd.lt hc)) hd.1.1.ne' hnone1
    · refine ⟨_, v', hadd, hframe.trans hframe1, htouch1.trans htouch,
        .inl ⟨rfl, .of_binds hsize hb1 hb, ?_⟩⟩
      -- the first direct block is the only one there is
      have hfirst : v₁.view.slot i (.direct 0) ≠ 0 := by
        obtain ⟨p, hp, hp0⟩ := hb1.dense hdense 0 (by
          have := hone hcount
          rw [View.entryCount] at this
          omega)
        rwa [← some.inj hp] at hp0
      have hheld : v'.view.held i = {.direct 0} := by
        ext q
        rw [mem_held, Finset.mem_singleton]
        by_cases hq : q = .direct 0
        · rw [hq, htouch.slot_kept _ hfirst]
          exact iff_of_true hfirst rfl
        · rw [hother (by rw [hone hcount]; norm_num) q hq,
            hother1 (by rw [hcount]; norm_num) q hq, hbare q]
          exact iff_of_false (fun h => h rfl) hq
      have hnone : v.view.held i = ∅ := by
        ext q
        rw [mem_held, hbare q]
        exact iff_of_false (fun h => h rfl) (Finset.notMem_empty q)
      have hsum := (htouch1.trans htouch).freeBlocks_add hc hl
      rwa [hheld, hnone, Finset.card_singleton, Finset.card_empty, add_zero] at hsum
    · -- the block of the first entry has room for the second
      have hfull := (hfailed.noRoom (hb1.dense hdense)).2
      rw [hone hcount] at hfull
      exact absurd hfull (by decide)
  · rw [hadd1]
    obtain ⟨hroom, hslots⟩ := hfailed.bare hcount
    refine ⟨_, v₁, rfl, hframe1, htouch1, .inr ⟨⟨e, rfl⟩, fun p => (hslots p).trans (hbare p), ?_⟩⟩
    refine Decidable.byContradiction fun hfree => hroom ⟨.direct 0, rfl, ?_⟩
    exact (List.countP_le_length (l := [Slot.direct 0])).trans (one_le_iff_ne_zero.mpr hfree)

omit hc in
/-- The new inode before it is named: it is empty, or has its two dots; or there was no room for
these, and it holds no block. No other inode gains or loses a block. -/
lemma newNode_spec {type : FileType} (hframe1 : v₁.frame = v.frame)
    (ha : Allocs v.view v₁.view i type.code) (hd : v.view.Live d) :
    ∃ r v', (if type = .dir then addDots v₁ i d else (.ok (), v₁)) = (r, v') ∧
      v'.frame = v.frame ∧ (∀ w, Extends v.view v'.view i w v.view.child) ∧
      (v'.view.inodes i).type = type.code ∧
      (∀ j p, v.view.Live j → v'.view.slot j p = v.view.slot j p) ∧
      ((r = .ok () ∧ (v'.view.names.dir i → HasDots v'.view i d) ∧
          v'.view.freeBlocks + type.ownBlocks = v.view.freeBlocks) ∨
        ((∃ e, r = .error e) ∧ (∀ p, v'.view.slot i p = 0) ∧
          v.view.freeBlocks < type.ownBlocks)) := by
  have hne : ∀ j, v.view.Live j → j ≠ i := fun j hj hji => ha.fresh (hji ▸ hj)
  cases type with
  | file =>
    refine ⟨_, v₁, rfl, hframe1, .of_allocs ha (.refl ha.consistent), ha.type_eq,
      fun j p hj => ha.slot_eq j p (hne j hj), .inl ⟨rfl, fun hi => ?_, ha.freeBlocks_eq⟩⟩
    have htype := ha.type_eq.symm.trans hi.2
    exact absurd htype (by decide)
  | dir =>
    obtain ⟨r, v', hdots, hframe, htouch, hcase⟩ :=
      addDots_spec (hv.of_frame hframe1) ha.consistent ha.live
        ha.size_eq (slot_bare ha.bare) ((ha.live_iff d).mpr (.inl hd))
    rw [ha.freeBlocks_eq] at hcase
    refine ⟨r, v', hdots, hframe.trans hframe1, .of_allocs ha htouch, ?_, fun j p hj => ?_, ?_⟩
    · rw [htouch.type_eq, ha.type_eq]
    · rw [htouch.slot_other j p (hne j hj) ((ha.live_iff j).mpr (Or.inl hj)),
        ha.slot_eq j p (hne j hj)]
    · rcases hcase with ⟨hr, hhas, hfree⟩ | ⟨hr, hbare, hfree⟩
      · exact .inl ⟨hr, fun _ => hhas, hfree⟩
      · exact Or.inr ⟨hr, hbare, by rw [hfree]; exact one_pos⟩

/-- `wfs_create` makes an empty node, or fails and changes no name. -/
theorem create_spec (hs : v.view.Sound) (path : CString) (type : FileType) :
    ∃ r v', create v path.1 type = (r, v') ∧ CreateResult v path type r v' := by
  rw [create, if_neg (by simp [hv.mounted])]
  cases hres : resolveParent v path.1 with
  | error e => exact ⟨_, _, rfl, .refused e⟩
  | ok pn =>
    obtain ⟨parent, name⟩ := pn
    obtain ⟨hat, -, hlen, hbytes, -⟩ := resolveParent_spec hv hc hs hres
    dsimp only
    cases hfind : dirFind v parent name with
    | ok i => exact ⟨_, _, rfl, .refused _⟩
    | error e =>
      have hvacant := dirFind_error hv hc hs hat hfind
      have htype : type.code < 65536 ∧ type.code ≠ typeFree := by cases type <;> decide
      -- from here on an inode is taken, and what fails later has to give it back
      rcases inodeAlloc_allocs hv hc htype.1 htype.2 with ⟨halloc, -⟩ | ⟨i, v₁, halloc, hframe1, ha⟩
      · rw [halloc]
        exact ⟨_, _, rfl, .refused _⟩
      rw [halloc]
      obtain ⟨r2, v2, hnew, hframe2, hextends, htype2, -, hcase⟩ :=
        newNode_spec hv hframe1 ha hat.live
      have hext := hextends parent
      rcases hcase with ⟨rfl, hdots, -⟩ | ⟨⟨e, rfl⟩, hbare, -⟩
      · have hv2 := hv.of_frame hframe2
        have hlive2 : ∀ j, v.view.Live j → v2.view.Live j := fun j hj =>
          (hext.live_iff j).mpr (.inl hj)
        have hi : v2.view.Live i := (hext.live_iff i).mpr (.inr rfl)
        have hne := hext.ne_of_live hat.live
        have hdir : v2.view.names.dir parent ↔ v.view.names.dir parent := hext.dir_iff parent hne
        dsimp only
        rw [hnew]
        obtain ⟨r, v3, hadd, hframe3, ⟨rfl, hshows⟩ | ⟨⟨e, rfl⟩, hshows, -⟩⟩ :=
          dirAdd_shows hv2 hext.consistent (hlive2 parent hat.live)
            (show Dirent.Fits ⟨i, name⟩ from ⟨hi.lt hext.consistent, hlen, hbytes⟩)
            hi.1.1.ne' fun hd => by
              have hd' := hdir.mp hd
              refine ⟨hext.dirOk parent hd' (hs.dirOk parent (hat.reached hd')), ?_⟩
              rw [hext.child_eq parent name hd', hvacant hd']
        · dsimp only
          rw [hadd]
          refine ⟨_, _, rfl, .created hres (hframe3.trans hframe2) ⟨?_, ?_, ?_, ?_, ?_⟩ ?_⟩
          · exact hext.rebind hshows
          · intro hd
            exact entry_eq_none_of_child (hvacant hd)
          · rintro hd rfl
            exact (hs.linked parent (hat.reached hd)).1 (hvacant hd)
          · rintro hd rfl
            exact (hs.linked parent (hat.reached hd)).2 (hvacant hd)
          · intro hid
            exact (hdots ((hshows.dir_iff i).mp hid)).of_shows hshows
              ((hshows.dir_iff i).mp hid) hne.symm
          · rw [← htype2]
            exact hshows.type_eq i hi
        · dsimp only
          rw [hadd]
          -- no room for the entry: the node goes with the block of its dots
          obtain ⟨hframe4, hfrees⟩ := release_frees (hv2.of_frame hframe3) hshows.consistent
            ((hshows.live_iff i).mpr hi)
          exact ⟨_, _, rfl, .undone e hres (hframe4.trans (hframe3.trans hframe2))
            ((hext.still hshows).undone hfrees)⟩
      · dsimp only
        rw [hnew]
        -- no room for the dots: the inode has no block yet
        obtain ⟨hframe3, hfrees⟩ := inodeFree_frees (hv.of_frame hframe2) hext.consistent
          ((hext.live_iff i).mpr (.inr rfl)) hbare
        exact ⟨_, _, rfl, .undone e hres (hframe3.trans hframe2) (hext.undone hfrees)⟩

end Create

/-! ## Moving a node -/

/-- Node `m` moves from entry `k` of `d` to entry `k'` of `d'`; a directory comes to name `d'` as
its parent. -/
structure Moved (c c' : View) (d : ℕ) (k : Name) (m d' : ℕ) (k' : Name) : Prop where
  reached : c.names.Reached d
  /-- The node had the old name. -/
  named : c.names.entry d k = some m
  /-- The new name was free. -/
  vacant : c.names.dir d' → c.child d' k' = none
  name_ne_dot : k' ≠ dot
  name_ne_dotDot : k' ≠ dotDot
  /-- The names change at the two entries, and at `..` of a directory. -/
  shows_ : Shows c c' d'
    (rebind (rebind (rebind c.child d' k' (some m)) d k none) m dotDot (some d'))

namespace Moved

variable {c c' : View} {d m d' : ℕ} {k k' : Name} (h : Moved c c' d k m d' k') (hs : c.Sound)

include h

/-- A name other than the three that change. -/
lemma child_eq {n : Name} (he : c.names.dir e) (hold : ¬ (e = d ∧ n = k))
    (hnew : ¬ (e = d' ∧ n = k')) (hup : ¬ (e = m ∧ n = dotDot)) :
    c'.child e n = c.child e n := by
  rw [h.shows_.child_eq e n he, rebind_of_not _ _ hup, rebind_of_not _ _ hold,
    rebind_of_not _ _ hnew]

include hs

/-- The tree with one node moved. -/
lemma moves : c.names.Moves c'.names d k m d' k' := by
  obtain ⟨hdot, hdotDot, hchild⟩ := names_entry_eq_some h.named
  have hd := hs.tree.dir_of_reached h.reached
  refine ⟨h.reached, h.named, fun hd' => entry_eq_none_of_child (h.vacant hd'), rfl,
    h.shows_.live_iff, h.shows_.dir_iff, ?_, fun hd' => ?_, fun e n he hold hnew => ?_,
    fun e he => ?_, fun e he hem => ?_, fun hm p hp => ?_⟩
  · rw [names_entry hdot hdotDot, h.shows_.child_eq d k hd,
      rebind_of_not _ _ fun hen => hdotDot hen.2, rebind_self]
  · -- the new name is not the old one, which is bound
    have hne : ¬ (d' = d ∧ k' = k) := by
      rintro ⟨rfl, rfl⟩
      rw [h.vacant hd] at hchild
      cases hchild
    rw [names_entry h.name_ne_dot h.name_ne_dotDot, h.shows_.child_eq d' k' hd',
      rebind_of_not _ _ fun hen => h.name_ne_dotDot hen.2, rebind_of_not _ _ hne, rebind_self]
  · exact names_entry_congr fun _ hdots => h.child_eq he hold hnew fun hen => hdots hen.2
  · exact h.child_eq he (fun hen => hdot hen.2.symm) (fun hen => h.name_ne_dot hen.2.symm)
      fun hen => absurd hen.2 (by decide)
  · exact h.child_eq he (fun hen => hdotDot hen.2.symm) (fun hen => h.name_ne_dotDot hen.2.symm)
      fun hen => hem hen.1
  · have hup : c'.child m dotDot = some p := hp
    rw [h.shows_.child_eq m dotDot hm, rebind_self] at hup
    exact (some.inj hup).symm

lemma sound : c'.Sound where
  tree := (h.moves hs).tree hs.tree
  linked := (h.moves hs).linked hs.tree hs.linked fun hm => by
    change c'.child m dotDot ≠ none
    rw [h.shows_.child_eq m dotDot hm, rebind_self]
    exact some_ne_none d'
  dirOk e he := by
    have he' := (h.moves hs).reached_back hs.tree he
    exact h.shows_.dirOk e (hs.tree.dir_of_reached he') (hs.dirOk e he')
  dense e he := by
    have he' := (h.moves hs).reached_back hs.tree he
    exact h.shows_.dense e (hs.tree.dir_of_reached he') (hs.dense e he')

end Moved

section Move

variable {v : Volume} (hv : Healthy v) (hc : v.view.Consistent) (hs : v.view.Sound)

include hv hc hs

variable {m : ℕ}

omit hs in
/-- The parent link of a directory is rewritten in place: its slot has just become free. -/
lemma rewriteUp_shows {p w : ℕ} (hm : v.view.names.dir m) (hok : v.view.DirOk m)
    (hdense : v.view.Dense m) (hup : v.view.child m dotDot ≠ none) (hp : v.view.Live p) :
    (dirAdd (dirRemove v m dotDot).2 m dotDot p).2.frame = v.frame ∧
      Shows v.view (dirAdd (dirRemove v m dotDot).2 m dotDot p).2.view w
        (rebind v.view.child m dotDot (some p)) := by
  obtain ⟨q, hq⟩ := ne_none_iff_exists'.mp hup
  obtain ⟨v₁, hremove, hframe1, hremoved, hfree⟩ := dirRemove_shows hv hc hm hok hq
  have hshows1 := hremoved w
  rw [hremove]
  have hm1 := (hshows1.dir_iff m).mpr hm
  obtain ⟨r, v2, hadd, hframe2, ⟨rfl, hshows2⟩ | ⟨-, -, hfailed⟩⟩ :=
    dirAdd_shows (hv.of_frame hframe1) hshows1.consistent (names_dir_live hm1)
      (Dirent.fits_dotDot (hp.lt hc)) hp.1.1.ne' fun _ =>
        ⟨hshows1.dirOk m hm hok, by rw [hshows1.child_eq m dotDot hm, rebind_self]⟩
  · rw [hadd]
    refine ⟨hframe2.trans hframe1, (hshows1.rebind (hshows2.of_dir hm1 w)).congr fun e n _ => ?_⟩
    by_cases hen : e = m ∧ n = dotDot
    · obtain ⟨rfl, rfl⟩ := hen
      rw [rebind_self, rebind_self]
    · simp only [rebind_of_not _ _ hen]
  · exact absurd ((hfailed hm1).noRoom (hshows1.dense m hm hdense)).1 hfree

variable {d' : ℕ} {k' : Name}

/-- The last part of `wfs_rename`: the entry cannot be added and nothing has changed, or the node
has moved. If the destination is a file, it is written to by `dir_add` only. -/
lemma moveEntry_spec {n : ℕ} {k : Name} {isDir : Bool} (hreach : v.view.names.Reached d)
    (hname : v.view.names.entry d k = some m) (hat : v.view.At n d')
    (hvacant : v.view.names.dir d' → v.view.child d' k' = none) (hdot : k' ≠ dot)
    (hdotDot : k' ≠ dotDot) (hlen : k'.length ≤ nameMax) (hbytes : ∀ b ∈ k', b ≠ 0)
    (hisDir : isDir = true ↔ v.view.names.dir m) :
    ∃ r v', moveEntry v m isDir d k d' k' = (r, v') ∧ v'.frame = v.frame ∧
      r = (dirAdd v d' k' m).1 ∧
      (¬ v.view.names.dir d' → Agree (dirAdd v d' k' m).2.view v'.view d') ∧
      (((∃ e, r = .error e) ∧ Shows v.view v'.view d' v.view.child) ∨
        (r = .ok () ∧ Moved v.view v'.view d k m d' k')) := by
  obtain ⟨-, hkup, hchild⟩ := names_entry_eq_some hname
  have hlive : v.view.Live m := hs.tree.entry_live d k m hreach hname
  have hd := hs.tree.dir_of_reached hreach
  have hmd : m ≠ d := hs.tree.entry_ne_self hreach hname
  rw [moveEntry]
  obtain ⟨r, v₁, hadd, hframe1, ⟨rfl, hshows1⟩ | ⟨⟨e, rfl⟩, hshows1, -⟩⟩ :=
    dirAdd_shows hv hc hat.live (show Dirent.Fits ⟨m, k'⟩ from ⟨hlive.lt hc, hlen, hbytes⟩)
      hlive.1.1.ne' fun hd' => ⟨hs.dirOk d' (hat.reached hd'), hvacant hd'⟩
  · have hchild1 : v₁.view.child d k = some m := by
      rw [hshows1.child_eq d k hd]
      by_cases hsame : d = d' ∧ k = k'
      · exact if_pos hsame
      · rw [rebind_of_not _ _ hsame, hchild]
    obtain ⟨v2, hremove, hframe2, hshows2, -⟩ := dirRemove_shows (hv.of_frame hframe1)
      hshows1.consistent ((hshows1.dir_iff d).mpr hd) (hshows1.dirOk d hd (hs.dirOk d hreach))
      hchild1
    have hshows := hshows1.rebind (hshows2 d')
    -- inode 0 is never in use, so these changes single out no file
    have hfile2 : ¬ v.view.names.dir d' → Agree v₁.view v2.view d' := fun hd' =>
      (hshows2 0).file d' ((hshows1.live_iff d').mpr hat.live)
        (fun h => hd' ((hshows1.dir_iff d').mp h)) hat.live.1.1.ne'
    have hframe := hframe2.trans hframe1
    rw [hadd]
    dsimp only
    rw [hremove]
    -- the parent link is still the old one
    have hup2 : v.view.names.dir m → v2.view.child m dotDot = some d := by
      intro hm
      rw [hshows.child_eq m dotDot hm, rebind_of_not _ _ fun hen => hmd hen.1,
        rebind_of_not _ _ fun hen => hdotDot hen.2.symm]
      obtain ⟨p, hp⟩ := ne_none_iff_exists'.mp (hs.linked m (hreach.step hname hm)).2
      obtain rfl := hs.tree.up_eq d k m p hreach hname hm hp
      exact hp
    dsimp only
    by_cases hacross : isDir = true ∧ d ≠ d'
    · have hm := hisDir.mp hacross.1
      have hreachm := hreach.step hname hm
      rw [if_pos hacross]
      have hrewrite := fun w => rewriteUp_shows (w := w) (hv.of_frame hframe)
        hshows.consistent ((hshows.dir_iff m).mpr hm) (hshows.dirOk m hm (hs.dirOk m hreachm))
        (hshows.dense m hm (hs.dense m hreachm)) (by rw [hup2 hm]; exact some_ne_none d)
        ((hshows.live_iff d').mpr hat.live)
      obtain ⟨hframe3, hshows3⟩ := hrewrite d'
      refine ⟨_, _, rfl, hframe3.trans hframe, rfl, fun hd' => (hfile2 hd').trans ?_,
        .inr ⟨rfl, hreach, hname, hvacant, hdot, hdotDot, hshows.rebind hshows3⟩⟩
      exact (hrewrite 0).2.file d' ((hshows.live_iff d').mpr hat.live)
        (fun h => hd' ((hshows.dir_iff d').mp h)) hat.live.1.1.ne'
    · rw [if_neg hacross]
      refine ⟨_, _, rfl, hframe, rfl, hfile2, .inr ⟨rfl, hreach, hname, hvacant, hdot, hdotDot,
        hshows.congr fun e l he => ?_⟩⟩
      by_cases hlink : e = m ∧ l = dotDot
      · -- a directory that stays where it is keeps its parent
        obtain ⟨rfl, rfl⟩ := hlink
        have hdd : d = d' := Decidable.byContradiction fun hne => hacross ⟨hisDir.mpr he, hne⟩
        rw [rebind_self, ← hshows.child_eq e dotDot he, hup2 he, hdd]
      · rw [rebind_of_not _ _ hlink]
  · rw [hadd]
    exact ⟨_, v₁, rfl, hframe1, rfl, fun _ => .refl _ d', .inl ⟨⟨e, rfl⟩, hshows1⟩⟩

omit hv hc hs in
/-- The state before the entry is moved: the new name of node `m` is free, or the file that had it
has been removed. -/
inductive Displaced (v : Volume) (m d' : ℕ) (k' : Name) : Volume → Prop
  | free : (v.view.names.dir d' → v.view.child d' k' = none) → Displaced v m d' k' v
  | file {v₁ : Volume} {x : ℕ} : x ≠ m → ¬ v.view.names.dir x → v₁.frame = v.frame →
      Removed v.view v₁.view d' k' x → Displaced v m d' k' v₁

/-- The part of `wfs_rename` that makes room for the new name. -/
lemma displace_spec {n : ℕ} (hat : v.view.At n d') (hdot : k' ≠ dot) (hdotDot : k' ≠ dotDot) :
    (∃ e, displace v m d' k' = (.error e, v)) ∨
      (displace v m d' k' = (.ok true, v) ∧ v.view.names.dir d') ∨
      ∃ v₁, displace v m d' k' = (.ok false, v₁) ∧ Displaced v m d' k' v₁ := by
  rw [displace]
  cases hfind : dirFind v d' k' with
  | error e => exact .inr (.inr ⟨v, rfl, .free (dirFind_error hv hc hs hat hfind)⟩)
  | ok x =>
    obtain ⟨hdir, hreach, hchild, hentry, hlive⟩ := dirFind_entry hv hc hs hat hdot hdotDot hfind
    dsimp only
    by_cases hsame : x = m
    · rw [if_pos hsame]
      exact .inr (.inl ⟨rfl, hdir⟩)
    rw [if_neg hsame, readInode_ok hv hlive.1]
    dsimp only
    by_cases htype : (v.view.inodes x).type = typeDir
    · rw [if_pos htype]
      exact .inl ⟨_, rfl⟩
    have hfile : ¬ v.view.names.dir x := fun hx => htype hx.2
    rw [if_neg htype]
    obtain ⟨v₁, hremove, hframe1, hremoved, -⟩ :=
      dirRemove_shows hv hc hdir (hs.dirOk d' hreach) hchild
    have hshows := hremoved x
    rw [hremove]
    obtain ⟨hframe, hfrees⟩ := release_frees (hv.of_frame hframe1) hshows.consistent
      ((hshows.live_iff x).mpr hlive)
    exact .inr (.inr ⟨_, rfl, .file hsame hfile (hframe.trans hframe1)
      (.of_steps hs hreach hentry (fun hx => absurd hx hfile) hshows (fun _ _ => rfl) hfrees)⟩)

omit hv in
/-- Removing the file that stands in the way leaves what the move rests on. -/
lemma Displaced.kept {k : Name} {n : ℕ} (h : Displaced v m d' k' v₁)
    (hreach : v.view.names.Reached d) (hname : v.view.names.entry d k = some m)
    (hat : v.view.At n d') (hne : ¬ (d = d' ∧ k = k')) :
    v₁.frame = v.frame ∧ v₁.view.Consistent ∧ v₁.view.Sound ∧ v₁.view.names.Reached d ∧
      v₁.view.names.entry d k = some m ∧ v₁.view.At n d' ∧
      (v₁.view.names.dir d' → v₁.view.child d' k' = none) ∧
      (v₁.view.names.dir m ↔ v.view.names.dir m) := by
  cases h with
  | free hvacant => exact ⟨rfl, hc, hs, hreach, hname, hat, hvacant, Iff.rfl⟩
  | @file _ x hxm hx hframe hrem =>
    have hleaf := hrem.leaf
    have hdirs : ∀ e, v.view.names.dir e → e ≠ x := fun e he hex => hx (hex ▸ he)
    have hd := hs.tree.dir_of_reached hreach
    have hd' := hs.tree.dir_of_reached hrem.removes.reached
    obtain ⟨l, hl⟩ := hreach
    obtain ⟨l', hl', hreach'⟩ := hat.reach hd'
    obtain ⟨hdot, hdotDot, -⟩ := names_entry_eq_some hrem.removes.named
    refine ⟨hframe, hrem.consistent, hrem.sound hs,
      (hrem.removes.reach_forth hs.tree hleaf hl (hdirs d hd)).reached, ?_, ⟨?_, fun _ => ?_⟩,
      fun _ => ?_, ?_⟩
    · rw [hrem.removes.entry_eq d k hd (hdirs d hd) hne, hname]
    · exact (hrem.removes.live_iff d').mpr ⟨hat.live, hdirs d' hd'⟩
    · exact ⟨l', hl', hrem.removes.reach_forth hs.tree hleaf hreach' (hdirs d' hd')⟩
    · rw [← names_entry hdot hdotDot]
      exact hrem.removes.cut
    · rw [hrem.removes.dir_iff]
      exact and_iff_left hxm.symm

omit hv hc hs in
lemma Displaced.dir_back (h : Displaced v m d' k' v₁)
    (he : v₁.view.names.dir e) : v.view.names.dir e := by
  cases h with
  | free => exact he
  | file _ _ _ hrem => exact ((hrem.removes.dir_iff e).mp he).1

omit hv hc in
/-- A node that is not above the destination is not above it after the file in the way is gone. -/
lemma Displaced.not_below (h : Displaced v m d' k' v₁) (hm : v₁.view.names.Reached m)
    (hnot : ¬ v.view.names.Below m d') :
    ¬ v₁.view.names.Below m d' := by
  cases h with
  | free => exact hnot
  | file _ _ _ hrem => exact fun hb => hnot (hrem.removes.below_back hs.tree hm hb)

omit hv hc hs in
/-- How `wfs_rename` ends. Between refusing and moving there is a third way: the file in the way is
gone and the entry could not be added. -/
inductive RenameResult (v : Volume) (fromPath toPath : CString) : Except Errno Unit → Volume → Prop
  | refused (e : Errno) : RenameResult v fromPath toPath (.error e) v
  | idle {d' : ℕ} {k' : Name} : resolveParent v toPath.1 = .ok (d', k') → v.view.names.dir d' →
      RenameResult v fromPath toPath (.ok ()) v
  | failed (e : Errno) {v₁ v' : Volume} {d m d' : ℕ} {k k' : Name} :
      resolveParent v fromPath.1 = .ok (d, k) → resolveParent v toPath.1 = .ok (d', k') →
      v.view.names.entry d k = some m → Displaced v m d' k' v₁ → v'.frame = v.frame →
      Shows v₁.view v'.view d' v₁.view.child → RenameResult v fromPath toPath (.error e) v'
  | moved {v₁ v' : Volume} {d m d' : ℕ} {k k' : Name} :
      resolveParent v fromPath.1 = .ok (d, k) → resolveParent v toPath.1 = .ok (d', k') →
      v.view.names.entry d k = some m → Displaced v m d' k' v₁ → v'.frame = v.frame →
      Moved v₁.view v'.view d k m d' k' →
      (v₁.view.names.dir m → v₁.view.names.dir d' → ¬ v₁.view.names.Below m d') →
      RenameResult v fromPath toPath (.ok ()) v'

/-- `wfs_rename` moves a node, or fails, perhaps with what was in the way removed. -/
theorem rename_spec (fromPath toPath : CString) :
    ∃ r v', rename v fromPath.1 toPath.1 = (r, v') ∧ RenameResult v fromPath toPath r v' := by
  rw [rename, if_neg (by simp [hv.mounted])]
  cases hfrom : resolveParent v fromPath.1 with
  | error e => exact ⟨_, _, rfl, .refused e⟩
  | ok dk =>
    obtain ⟨d, k⟩ := dk
    obtain ⟨hatd, -⟩ := resolveParent_spec hv hc hs hfrom
    cases hto : resolveParent v toPath.1 with
    | error e => exact ⟨_, _, rfl, .refused e⟩
    | ok dk' =>
      obtain ⟨d', k'⟩ := dk'
      obtain ⟨hat, -, hlen, hbytes, -⟩ := resolveParent_spec hv hc hs hto
      dsimp only
      by_cases hdots : k = dot ∨ k = dotDot ∨ k' = dot ∨ k' = dotDot
      · rw [if_pos hdots]
        exact ⟨_, _, rfl, .refused _⟩
      rw [if_neg hdots]
      simp only [not_or] at hdots
      obtain ⟨hk1, hk2, hk'1, hk'2⟩ := hdots
      cases hfind : dirFind v d k with
      | error e => exact ⟨_, _, rfl, .refused e⟩
      | ok m =>
        obtain ⟨hdir, hreach, -, hname, hlive⟩ := dirFind_entry hv hc hs hatd hk1 hk2 hfind
        dsimp only
        rw [readInode_ok hv hlive.1]
        dsimp only
        by_cases hsame : d = d' ∧ k = k'
        · rw [if_pos hsame]
          exact ⟨_, _, rfl, .idle hto (hsame.1 ▸ hdir)⟩
        rw [if_neg hsame]
        by_cases hloop : (v.view.inodes m).type = typeDir ∧ meetsGoingUp v m 256 d' = true
        · rw [if_pos hloop]
          exact ⟨_, _, rfl, .refused _⟩
        rw [if_neg hloop]
        rcases displace_spec hv hc hs (m := m) hat hk'1 hk'2 with
          ⟨e, hdis⟩ | ⟨hdis, hdir'⟩ | ⟨v₁, hdis, hd1⟩
        · rw [hdis]
          exact ⟨_, _, rfl, .refused e⟩
        · rw [hdis]
          exact ⟨_, _, rfl, .idle hto hdir'⟩
        obtain ⟨hframe1, hc1, hs1, hreach1, hname1, hat1, hvacant, hdirm⟩ :=
          hd1.kept hc hs hreach hname hat hsame
        have hisDir : decide ((v.view.inodes m).type = typeDir) = true ↔ v₁.view.names.dir m := by
          rw [decide_eq_true_iff, hdirm]
          exact (and_iff_right hlive.1).symm
        rw [hdis]
        obtain ⟨r, v', hmove, hframe, -, -, ⟨⟨e, rfl⟩, hshows⟩ | ⟨rfl, hmoved⟩⟩ :=
          moveEntry_spec (hv.of_frame hframe1) hc1 hs1 hreach1 hname1 hat1 hvacant hk'1
            hk'2 hlen hbytes hisDir
        · exact ⟨_, v', hmove, .failed e hfrom hto hname hd1 (hframe.trans hframe1) hshows⟩
        refine ⟨_, v', hmove, .moved hfrom hto hname hd1 (hframe.trans hframe1) hmoved ?_⟩
        -- the walk upwards has room to reach the root
        intro hm hd'
        have hm0 := hdirm.mp hm
        refine hd1.not_below hs (hreach1.step hname1 hm) fun hbelow => hloop ⟨hm0.2, ?_⟩
        obtain ⟨l, hl, hld'⟩ := hat.reach (hd1.dir_back hd')
        exact (meetsGoingUp_iff hv hc hs (hreach.step hname hm0) hld'
          (lt_succ_of_le hl)).mpr hbelow

end Move

end Wos.Wfs
