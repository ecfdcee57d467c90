import Wos.Base.NameTree
import Wos.Wfs.Entries

/-!
# Paths

The namespace of a volume as an instance of `NameSpace`, and what following a path through it
arrives at. A path that `resolve_parent` accepts leads to an inode in use, and if that is a
directory, to one at most 255 steps below the root; so the 256 steps of the walk upwards in
`wfs_rename` are always enough to reach the root.

## Main definitions

* `View.names`: the namespace of a volume;
* `View.Sound`: its reachable part is a tree of well-formed directories;
* `CString`: the bytes of a C string.

## Main results

* `walk_spec`, `lookup_spec`, `resolveParent_spec`: where paths lead;
* `lookup_of_resolveParent`: looking up a path is looking up its parent and then the last name;
* `meetsGoingUp_iff`: the walk upwards finds out whether a directory is above another one.
-/

namespace Wos.Wfs

open List Nat

/-- The bytes of a C string, without the terminating NUL. -/
abbrev CString := { s : Name // (0 : UInt8) ∉ s }

/-- The inode is a directory. -/
def View.IsDir (c : View) (i : ℕ) : Prop := c.Valid i ∧ (c.inodes i).type = typeDir

/-- The namespace of a volume. -/
def View.names (c : View) : NameSpace ℕ Name where
  root := rootIno
  live := c.Live
  dir := c.IsDir
  entry d name := if name = dot ∨ name = dotDot then none else c.child d name
  self d := c.child d dot
  up d := c.child d dotDot

/-- What can be reached from the root is a tree of well-formed directories, which have their two
dots and no holes. -/
structure View.Sound (c : View) : Prop where
  /-- What can be reached is a tree. -/
  tree : c.names.Tree
  /-- Directories have their two dots. -/
  linked : c.names.Linked
  /-- They are well formed. -/
  dirOk : ∀ d, c.names.Reached d → c.DirOk d
  /-- They have no holes. -/
  dense : ∀ d, c.names.Reached d → c.Dense d

/-- Inode `i` is in use, and if it is a directory it is reached in at most `n` steps. -/
structure View.At (c : View) (n i : ℕ) : Prop where
  live : c.Live i
  reach : c.names.dir i → ∃ m ≤ n, c.names.Reach m i

variable {d i n : ℕ} {name : Name}

variable {path : Name} {m parent : ℕ}

namespace View

variable {c : View}

lemma names_entry (h : name ≠ dot) (h' : name ≠ dotDot) : c.names.entry d name = c.child d name :=
  if_neg (by rintro (rfl | rfl) <;> contradiction)

/-- The dots are no entries of the namespace, so only the other names have to be compared. -/
lemma names_entry_congr {c' : View}
    (h : name ≠ dot → name ≠ dotDot → c'.child d name = c.child d name) :
    c'.names.entry d name = c.names.entry d name := by
  by_cases hdots : name = dot ∨ name = dotDot
  · exact (if_pos hdots).trans (if_pos hdots).symm
  · rw [not_or] at hdots
    rw [names_entry hdots.1 hdots.2, names_entry hdots.1 hdots.2, h hdots.1 hdots.2]

lemma names_entry_eq_some (h : c.names.entry d name = some i) :
    name ≠ dot ∧ name ≠ dotDot ∧ c.child d name = some i := by
  have hnot : ¬ (name = dot ∨ name = dotDot) := fun hdots => by
    have hnone : c.names.entry d name = none := if_pos hdots
    rw [hnone] at h
    cases h
  rw [not_or] at hnot
  rw [names_entry hnot.1 hnot.2] at h
  exact ⟨hnot.1, hnot.2, h⟩

lemma entry_eq_none_of_child (h : c.child d name = none) : c.names.entry d name = none := by
  by_cases hdots : name = dot ∨ name = dotDot
  · exact if_pos hdots
  · rw [not_or] at hdots
    rw [names_entry hdots.1 hdots.2, h]

lemma names_dir_live (h : c.names.dir i) : c.Live i := by
  refine ⟨h.1, ?_⟩
  rw [h.2]
  decide

lemma At.reached (h : c.At n i) (hd : c.names.dir i) : c.names.Reached i := by
  obtain ⟨m, -, hm⟩ := h.reach hd
  exact hm.reached

lemma At.mono (h : c.At m i) (hmn : m ≤ n) : c.At n i :=
  ⟨h.live, fun hd => by
    obtain ⟨k, hk, hr⟩ := h.reach hd
    exact ⟨k, hk.trans hmn, hr⟩⟩

/-- A directory that is reached is where it is. -/
lemma Sound.at_of_reach (hs : c.Sound) (h : c.names.Reach n d) : c.At n d :=
  ⟨names_dir_live (hs.tree.dir_of_reached h.reached), fun _ => ⟨n, le_rfl, h⟩⟩

lemma Sound.at_root (hs : c.Sound) : c.At 0 rootIno := hs.at_of_reach .root

/-- One name further. The two dots lead no deeper. -/
lemma Sound.at_child (hs : c.Sound) (h : c.names.Reach n d)
    (hi : c.child d name = some i) : c.At (n + 1) i := by
  by_cases hdot : name = dot
  · subst hdot
    obtain rfl := hs.tree.self_eq d i h.reached hi
    exact (hs.at_of_reach h).mono (le_succ n)
  by_cases hdotDot : name = dotDot
  · subst hdotDot
    cases h with
    | root =>
      obtain rfl := hs.tree.up_root i hi
      exact hs.at_root.mono (zero_le 1)
    | @step n p _ k hp hk hd =>
      obtain rfl := hs.tree.up_eq p k d i hp.reached hk hd hi
      exact (hs.at_of_reach hp).mono (by omega)
  · rw [← names_entry hdot hdotDot] at hi
    exact ⟨hs.tree.entry_live d name i h.reached hi, fun hd => ⟨n + 1, le_rfl, h.step hi hd⟩⟩

end View

/-! ## Components -/

/-- A path has at most as many components as bytes. -/
lemma length_components_le (path : Name) : (components path).length ≤ path.length := by
  rw [components]
  induction path with
  | nil => simp
  | cons b path ih =>
    rw [splitOnP_cons_eq_if_modifyHead]
    split_ifs
    · simpa using le_succ_of_le ih
    -- the byte joins the first component, which may have been empty
    cases hsplit : path.splitOnP (· = slash) with
    | nil => simp
    | cons first rest =>
      rw [hsplit, filter_cons] at ih
      rw [modifyHead_cons, filter_cons, if_pos (by simp), length_cons, length_cons]
      split at ih
      next =>
        rw [length_cons] at ih
        omega
      next => omega

/-- The last name of a path consists of bytes of the path, none of them a slash. -/
lemma mem_lastName {b : UInt8} (h : b ∈ lastName path) : b ∈ path ∧ b ≠ slash :=
  ⟨(rtakeWhile_suffix _ _).subset h, by simpa using mem_rtakeWhile_imp h⟩

/-- A path with a slash is the part before the last slash, the slash and the last name. -/
lemma eq_append_lastName (h : slash ∈ path) :
    path = path.take (path.length - (lastName path).length - 1) ++ slash :: lastName path := by
  obtain ⟨l, hl⟩ : ∃ l, path = l ++ slash :: lastName path := by
    have hne : path.rdropWhile (· ≠ slash) ≠ [] := by
      rw [ne_eq, rdropWhile_eq_nil_iff]
      intro hall
      simpa using hall slash h
    have hlast : (path.rdropWhile (· ≠ slash)).getLast hne = slash := by
      simpa using rdropWhile_last_not (· ≠ slash) path hne
    have hinit := dropLast_append_getLast hne
    rw [hlast] at hinit
    refine ⟨(path.rdropWhile (· ≠ slash)).dropLast, ?_⟩
    conv_lhs => rw [← rdropWhile_append_rtakeWhile (p := (· ≠ slash)) (l := path), ← hinit,
      append_assoc]
    rfl
  generalize lastName path = name at hl
  subst hl
  have hlen : (l ++ slash :: name).length - name.length - 1 = l.length := by
    rw [length_append, length_cons]
    omega
  rw [hlen, take_left]

lemma components_append {l : Name} (hne : name ≠ []) (hslash : slash ∉ name) :
    components (l ++ slash :: name) = components l ++ [name] := by
  have hname : name.splitOnP (· = slash) = [name] := splitOnP_eq_singleton fun b hb => by
    simpa using ne_of_mem_of_not_mem hb hslash
  rw [components, splitOnP_append_cons _ _ (by simp), filter_append, hname, components]
  simp [hne]

/-! ## Following a path -/

lemma walk_concat (v : Volume) (i : ℕ) (l : List Name) (hlen : name.length ≤ nameMax) :
    walk v i (l ++ [name]) = walk v i l >>= fun d => dirFind v d name := by
  induction l generalizing i with
  | nil =>
    change walk v i [name] = dirFind v i name
    rw [walk, if_neg (not_lt.mpr hlen)]
    cases dirFind v i name <;> rfl
  | cons first rest ih =>
    rw [cons_append, walk, walk]
    split_ifs
    · rfl
    cases dirFind v i first with
    | error e => rfl
    | ok next => exact ih next

/-- A path that `resolve_parent` accepts is looked up in two steps: its parent, and in it the last
name. -/
theorem lookup_of_resolveParent {v : Volume} (hv : Healthy v) {path : CString}
    (h : resolveParent v path.1 = .ok (parent, name)) :
    lookup v path.1 = dirFind v parent name := by
  rw [resolveParent] at h
  split at h
  next => cases h
  next hmem =>
    rw [not_not] at hmem
    have hpath := eq_append_lastName hmem
    have hslash : slash ∉ lastName path.1 := fun hb => (mem_lastName hb).2 rfl
    dsimp only at h
    generalize path.1.take (path.1.length - (lastName path.1).length - 1) = l at h hpath
    split at h
    next => cases h
    next hne =>
      split at h
      next => cases h
      next hlen =>
        have hwalk : ∀ i, walk v i (components path.1) =
            walk v i (components l) >>= fun d => dirFind v d (lastName path.1) := by
          intro i
          rw [← walk_concat v i _ (not_lt.mp hlen), ← components_append hne hslash, ← hpath]
        have hlook : path.1.head? = some slash →
            lookup v path.1 = walk v v.sb.rootInode (components path.1) := fun hhead => by
          rw [lookup, if_neg (by simp [hv.mounted]), if_neg (by simp [hhead])]
        split at h
        next hl =>
          cases h
          rw [hlook (by rw [hpath, hl]; rfl), hwalk, hl]
          rfl
        next hl =>
          split_ifs at h
          cases hparent : lookup v l with
          | error e =>
            rw [hparent] at h
            cases h
          | ok i =>
            rw [hparent] at h
            cases h
            rw [lookup, if_neg (by simp [hv.mounted])] at hparent
            split_ifs at hparent with hhead
            rw [hlook ?_, hwalk, hparent]
            · rfl
            · rw [hpath, head?_append_of_ne_nil _ hl]
              simpa using hhead

section Walk

variable {v : Volume} (hv : Healthy v) (hc : v.view.Consistent) (hs : v.view.Sound)

include hv hc hs

/-- A name is found only in a directory, and there it is an entry. -/
lemma dirFind_ok (hd : v.view.At n d)
    (h : dirFind v d name = .ok i) : v.view.names.dir d ∧ v.view.child d name = some i := by
  by_cases htype : (v.view.inodes d).type = typeDir
  · have hdir : v.view.names.dir d := ⟨hd.live.1, htype⟩
    rw [dirFind_spec hv hc hd.live (hs.dirOk d (hd.reached hdir)) htype] at h
    cases hchild : v.view.child d name with
    | none =>
      rw [hchild] at h
      cases h
    | some j =>
      rw [hchild] at h
      cases h
      exact ⟨hdir, rfl⟩
  · rw [dirFind_notDir hv hd.live htype] at h
    cases h

/-- A name that is found, other than `.` and `..`, is an entry of a directory that is reached. -/
lemma dirFind_entry (hd : v.view.At n d) (hdot : name ≠ dot) (hdotDot : name ≠ dotDot)
    (h : dirFind v d name = .ok i) : v.view.names.dir d ∧ v.view.names.Reached d ∧
      v.view.child d name = some i ∧ v.view.names.entry d name = some i ∧ v.view.Live i := by
  obtain ⟨hdir, hchild⟩ := dirFind_ok hv hc hs hd h
  have hentry : v.view.names.entry d name = some i := by
    rw [View.names_entry hdot hdotDot, hchild]
  have hreach := hd.reached hdir
  exact ⟨hdir, hreach, hchild, hentry, hs.tree.entry_live d name i hreach hentry⟩

/-- A name that a directory does not find is free. -/
lemma dirFind_error {e : Errno} (hd : v.view.At n d) (h : dirFind v d name = .error e)
    (hdir : v.view.names.dir d) :
    v.view.child d name = none := by
  rw [dirFind_spec hv hc hd.live (hs.dirOk d (hd.reached hdir)) hdir.2] at h
  cases hchild : v.view.child d name with
  | none => rfl
  | some j =>
    rw [hchild] at h
    cases h

/-- The walk of `wfs_lookup` goes at most one step deeper for each component. -/
theorem walk_spec (names : List Name) (hd : v.view.At n d)
    (h : walk v d names = .ok i) : v.view.At (n + names.length) i := by
  induction names generalizing n d with
  | nil =>
    cases h
    exact hd
  | cons name rest ih =>
    rw [walk] at h
    split_ifs at h
    cases hfind : dirFind v d name with
    | error e =>
      rw [hfind] at h
      cases h
    | ok next =>
      rw [hfind] at h
      obtain ⟨hdir, hchild⟩ := dirFind_ok hv hc hs hd hfind
      obtain ⟨m, hm, hreach⟩ := hd.reach hdir
      have hnext := (hs.at_child hreach hchild).mono (succ_le_succ hm)
      have := ih hnext h
      rwa [length_cons, add_comm rest.length 1, ← add_assoc]

/-- `wfs_lookup` leads to an inode in use, not deeper than the path is long. -/
theorem lookup_spec (h : lookup v path = .ok i) : v.view.At path.length i := by
  rw [lookup, if_neg (by simp [hv.mounted]), hv.geometry.root_eq] at h
  split_ifs at h
  have hat := walk_spec hv hc hs _ hs.at_root h
  rw [zero_add] at hat
  exact hat.mono (length_components_le path)

/-- What `resolve_parent` returns: a place at most 255 steps deep and a name that fits an
entry. -/
theorem resolveParent_spec {path : CString} (h : resolveParent v path.1 = .ok (parent, name)) :
    v.view.At pathMax parent ∧ name ≠ [] ∧ name.length ≤ nameMax ∧ (∀ b ∈ name, b ≠ 0) ∧
      slash ∉ name := by
  have hbytes : ∀ b ∈ lastName path.1, b ≠ 0 := fun b hb h0 =>
    path.2 (h0 ▸ (mem_lastName hb).1)
  have hslash : slash ∉ lastName path.1 := fun hb => (mem_lastName hb).2 rfl
  rw [resolveParent] at h
  split_ifs at h
  dsimp only at h
  split at h
  next => cases h
  next hne =>
    split at h
    next => cases h
    next hlen =>
      have hname : lastName path.1 ≠ [] ∧ (lastName path.1).length ≤ nameMax ∧
          (∀ b ∈ lastName path.1, b ≠ 0) ∧ slash ∉ lastName path.1 :=
        ⟨hne, not_lt.mp hlen, hbytes, hslash⟩
      split at h
      next =>
        cases h
        rw [hv.geometry.root_eq]
        exact ⟨hs.at_root.mono (zero_le _), hname⟩
      next =>
        split_ifs at h with hpath
        cases hlook : lookup v (path.1.take (path.1.length - (lastName path.1).length - 1)) with
        | error e =>
          rw [hlook] at h
          cases h
        | ok i =>
          rw [hlook] at h
          cases h
          exact ⟨(lookup_spec hv hc hs hlook).mono (not_lt.mp hpath), hname⟩

/-- Going up from a directory finds the directories above it, if the steps last to the root. -/
theorem meetsGoingUp_iff (hm : v.view.names.Reached m) {steps : ℕ} (hd : v.view.names.Reach n d)
    (hsteps : n < steps) :
    meetsGoingUp v m steps d = true ↔ v.view.names.Below m d := by
  induction steps generalizing n d with
  | zero => omega
  | succ steps ih =>
    rw [meetsGoingUp]
    by_cases hdm : d = m
    · rw [if_pos hdm, hdm]
      exact iff_of_true rfl .refl
    rw [if_neg hdm]
    by_cases hroot : d = rootIno
    · subst hroot
      rw [if_pos rfl]
      exact iff_of_false Bool.false_ne_true (hs.tree.not_below_root hm (Ne.symm hdm))
    rw [if_neg hroot]
    obtain ⟨l, p, k, rfl, hp, hk, hup⟩ := hs.tree.up_of_reach hs.linked hd hroot
    have hdir := hs.tree.dir_of_reached hd.reached
    have hchild : v.view.child d dotDot = some p := hup
    have hne : p ≠ d := by
      rintro rfl
      exact hs.tree.up_ne_self hs.linked hd.reached hroot hup
    rw [dirFind_spec hv hc (View.names_dir_live hdir) (hs.dirOk d hd.reached) hdir.2, hchild]
    dsimp only
    rw [if_neg hne, ih hp (by omega)]
    exact (hs.tree.below_up_iff hm hp.reached hk hdir hdm).symm

end Walk

end Wos.Wfs
