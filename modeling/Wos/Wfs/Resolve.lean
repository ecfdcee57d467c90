import Wos.Mkwfs.Intact

/-!
# Normalised paths

`vfs_resolve` of `kernel/fs/vfs.c` joins a path to the working directory and collapses `.`, `..` and
repeated slashes without looking at the disk. It keeps the lengths the output had before each name,
and `..` goes back to the last of them. On a sound volume this leads where walking through the `.`
and `..` entries leads, if the directories on the way exist.

## Main definitions

* `joined`, `vfsResolve`: the functions of the kernel;
* `Passable`: every prefix of a walk but the whole of it leads to a directory;
* `Spells`: what the output stands for while it is built.

## Main results

* `resolve_agrees`: the normalised path is looked up like the joined one.
-/

namespace Wos.Wfs

open List

/-- The path that is normalised: a relative one is put behind the working directory. -/
def joined (cwd path : Name) : Name :=
  if path.head? = some slash then path
  else cwd ++ (if cwd.getLast? = some slash then [] else [slash]) ++ path

/-- The output with one more name. -/
def addName (out name : Name) : Name := (if 1 < out.length then out ++ [slash] else out) ++ name

/-- The output without its last name. At the root there is none. -/
def dropName (out : Name) : List ℕ → Name
  | [] => out
  | len :: _ => out.take len

/-- The loop of `vfs_resolve` over the components, with the output and the lengths it had before. -/
def resolveLoop (outSize : ℕ) : List Name → Name → List ℕ → Except Errno Name
  | [], out, _ => .ok out
  | name :: rest, out, saved =>
    if name = dot then resolveLoop outSize rest out saved
    else if name = dotDot then resolveLoop outSize rest (dropName out saved) saved.tail
    else if nameMax < name.length then .error .ENAMETOOLONG
    else if 64 ≤ saved.length then .error .ENAMETOOLONG
    -- with its NUL
    else if outSize < (addName out name).length + 1 then .error .ENAMETOOLONG
    else resolveLoop outSize rest (addName out name) (out.length :: saved)

/-- `vfs_resolve`. -/
def vfsResolve (cwd path : Name) (outSize : ℕ) : Except Errno Name :=
  if path = [] then .error .EINVAL
  else if path.head? = some slash then
    if pathMax < path.length then .error .ENAMETOOLONG
    else resolveLoop outSize (components (joined cwd path)) [slash] []
  else if pathMax * 2 + 1 < cwd.length + 1 + path.length then .error .ENAMETOOLONG
  else resolveLoop outSize (components (joined cwd path)) [slash] []

/-- Walking from `d`, every name but the last leads to a directory. -/
def Passable (v : Volume) (d : ℕ) (names : List Name) : Prop :=
  ∀ k < names.length, ∃ i, walk v d (names.take k) = .ok i ∧ v.view.names.dir i

/-! ## Components -/

/-- Components are not empty and have no slash. -/
lemma mem_components {path name : Name} (h : name ∈ components path) :
    name ≠ [] ∧ slash ∉ name := by
  obtain ⟨hmem, hne⟩ := mem_filter.mp h
  refine ⟨by simpa using hne, ?_⟩
  clear hne h
  induction hlen : path.length using Nat.strong_induction_on generalizing path with
  | _ n ih =>
    by_cases hslash : slash ∈ path
    · -- the part before the first slash, and the rest
      obtain ⟨first, rest, rfl, hfirst⟩ := eq_append_cons_of_mem hslash
      rw [splitOnP_append_cons_of_forall_mem
        (fun b hb => by simpa using ne_of_mem_of_not_mem hb hfirst) _ (by simp)] at hmem
      rcases mem_cons.mp hmem with rfl | hmem
      · exact hfirst
      · refine ih rest.length ?_ hmem rfl
        rw [← hlen, length_append, length_cons]
        omega
    · rw [splitOnP_eq_singleton fun b hb => by simpa using ne_of_mem_of_not_mem hb hslash,
        mem_singleton] at hmem
      rwa [hmem]

variable {out : Name}

lemma components_addName {name : Name} (hout : out = [slash] ∨ 1 < out.length) (hne : name ≠ [])
    (hslash : slash ∉ name) :
    components (addName out name) = components out ++ [name] := by
  rcases hout with rfl | hlong
  · exact components_append (l := []) hne hslash
  · rw [addName, if_pos hlong, append_assoc]
    exact components_append hne hslash

/-! ## The output -/

/-- The output and the saved lengths lead to a directory: each name of the output is an entry of the
directory that the part before it leads to. -/
inductive Spells (c : View) : Name → List ℕ → ℕ → Prop
  | root : Spells c [slash] [] rootIno
  | name {out : Name} {saved : List ℕ} {d i : ℕ} {name : Name} :
      Spells c out saved d → name ≠ [] → slash ∉ name → name.length ≤ nameMax →
      c.names.entry d name = some i → c.names.dir i →
      Spells c (addName out name) (out.length :: saved) i

namespace Spells

variable {c : View} {out : Name} {saved : List ℕ} {d : ℕ}

lemma shape (h : Spells c out saved d) : out = [slash] ∨ 1 < out.length := by
  induction h with
  | root => exact .inl rfl
  | name _ hne _ _ _ _ ih =>
    right
    have hpos := length_pos_iff.mpr hne
    rcases ih with rfl | hlong
    · rw [addName, length_append]
      simpa using hpos
    · rw [addName, if_pos hlong, length_append, length_append]
      omega

lemma head (h : Spells c out saved d) : out.head? = some slash := by
  induction h with
  | root => rfl
  | @name out saved p i name hp _ _ _ _ _ ih =>
    rw [addName]
    split
    · rw [head?_append, head?_append, ih]
      rfl
    · rw [head?_append, ih]
      rfl

/-- Going back to the saved length takes the last name off. -/
lemma take_addName (out name : Name) : (addName out name).take out.length = out := by
  rw [addName]
  split
  · rw [append_assoc, take_left]
  · exact take_left

lemma reached (h : Spells c out saved d) : c.names.Reached d := by
  induction h with
  | root => exact .root _
  | name _ _ _ _ hentry hdir ih =>
    obtain ⟨n, hn⟩ := ih
    exact ⟨n + 1, hn.step hentry hdir⟩

end Spells

section Agree

variable {v : Volume} (hv : Healthy v) (hc : v.view.Consistent) (hs : v.view.Sound)

include hv hc hs

variable {d : ℕ}

/-- In a directory that is reached, a name is found if and only if it is an entry. -/
lemma dirFind_reached (hd : v.view.names.Reached d) (name : Name) :
    dirFind v d name = match v.view.child d name with
      | none => .error .ENOENT
      | some i => .ok i := by
  have hdir := hs.tree.dir_of_reached hd
  exact dirFind_spec hv hc (View.names_dir_live hdir) (hs.dirOk d hd) hdir.2 name

lemma dirFind_dot (hd : v.view.names.Reached d) : dirFind v d dot = .ok d := by
  obtain ⟨i, hi⟩ := Option.ne_none_iff_exists'.mp (hs.linked d hd).1
  have hself := hs.tree.self_eq d i hd hi
  rw [dirFind_reached hv hc hs hd, show v.view.child d dot = some i from hi, hself]

variable {saved : List ℕ}

/-- `..` leads to what is left of the output without its last name. -/
lemma dirFind_dotDot (h : Spells v.view out saved d) :
    ∃ p, dirFind v d dotDot = .ok p ∧ Spells v.view (dropName out saved) saved.tail p := by
  have hd := h.reached
  obtain ⟨p, hp⟩ := Option.ne_none_iff_exists'.mp (hs.linked d hd).2
  refine ⟨p, by rw [dirFind_reached hv hc hs hd, show v.view.child d dotDot = some p from hp], ?_⟩
  cases h with
  | root =>
    obtain rfl := hs.tree.up_root p hp
    exact .root
  | @name out saved q _ name hq _ _ _ hentry hdir =>
    obtain rfl := hs.tree.up_eq q name d p (hq.reached) hentry hdir hp
    rw [dropName, Spells.take_addName, tail_cons]
    exact hq

/-- The output leads to the directory it spells. -/
lemma Spells.walk_eq (h : Spells v.view out saved d) :
    walk v rootIno (components out) = .ok d := by
  induction h with
  | root => rfl
  | @name out saved p i name hp hne hslash hlen hentry hdir ih =>
    obtain ⟨-, -, hchild⟩ := View.names_entry_eq_some hentry
    rw [components_addName hp.shape hne hslash, walk_concat v _ _ hlen, ih]
    change dirFind v p name = _
    rw [dirFind_reached hv hc hs (hp.reached), hchild]

/-- The rest of the components, from a directory that the output spells. -/
lemma resolveLoop_spec (outSize : ℕ) {names : List Name}
    (hnames : ∀ name ∈ names, name ≠ [] ∧ slash ∉ name) (h : Spells v.view out saved d)
    (hpass : Passable v d names) {out' : Name}
    (hout : resolveLoop outSize names out saved = .ok out') :
    out'.head? = some slash ∧ walk v rootIno (components out') = walk v d names := by
  induction names generalizing out saved d with
  | nil =>
    cases hout
    exact ⟨h.head, h.walk_eq hv hc hs⟩
  | cons name rest ih =>
    have hrest := fun x hx => hnames x (mem_cons_of_mem name hx)
    have hshort : ∀ {i : ℕ}, name.length ≤ nameMax → dirFind v d name = .ok i →
        walk v d (name :: rest) = walk v i rest ∧ Passable v i rest := by
      intro i hlen hfind
      have hstep : ∀ names', walk v d (name :: names') = walk v i names' := by
        intro names'
        rw [walk, if_neg (not_lt.mpr hlen), hfind]
      refine ⟨hstep rest, fun k hk => ?_⟩
      have := hpass (k + 1) (Nat.succ_lt_succ hk)
      rwa [take_succ_cons, hstep] at this
    rw [resolveLoop] at hout
    split at hout
    next hdot =>
      subst hdot
      obtain ⟨hwalk, hpass'⟩ := hshort (by decide) (dirFind_dot hv hc hs (h.reached))
      rw [hwalk]
      exact ih hrest h hpass' hout
    next hdot =>
      split at hout
      next hdotDot =>
        subst hdotDot
        obtain ⟨p, hfind, hspells⟩ := dirFind_dotDot hv hc hs h
        obtain ⟨hwalk, hpass'⟩ := hshort (by decide) hfind
        rw [hwalk]
        exact ih hrest hspells hpass' hout
      next hdotDot =>
        split_ifs at hout with hlen
        obtain ⟨hne, hslash⟩ := hnames name mem_cons_self
        cases rest with
        | nil =>
          -- the last name need not be there
          cases hout
          refine ⟨?_, ?_⟩
          · rw [addName]
            split <;> simp [head?_append, h.head]
          · rw [components_addName h.shape hne hslash, walk_concat v _ _ (not_lt.mp hlen),
              h.walk_eq hv hc hs]
            exact (walk_concat v d [] (not_lt.mp hlen)).symm
        | cons next rest =>
          obtain ⟨i, hi, hdir⟩ := hpass 1 (by simp)
          have hfind : dirFind v d name = .ok i := by
            rwa [take_succ_cons, take_zero, ← nil_append [name],
              walk_concat v d [] (not_lt.mp hlen)] at hi
          obtain ⟨hwalk, hpass'⟩ := hshort (not_lt.mp hlen) hfind
          have hd := h.reached
          have hentry : v.view.names.entry d name = some i := by
            rw [View.names_entry hdot hdotDot]
            rw [dirFind_reached hv hc hs hd] at hfind
            cases hchild : v.view.child d name with
            | none =>
              rw [hchild] at hfind
              cases hfind
            | some j =>
              rw [hchild] at hfind
              exact congrArg some (Except.ok.inj hfind)
          rw [hwalk]
          exact ih hrest (.name h hne hslash (not_lt.mp hlen) hentry hdir) hpass' hout

/-- On a sound volume, where the working directory is found and every name of the joined path but
the last leads to a directory, the normalised path is looked up like the joined one. -/
theorem resolve_agrees {cwd path out : Name} {outSize d : ℕ} (hcwd : lookup v cwd = .ok d)
    (hpass : Passable v rootIno (components (joined cwd path)))
    (h : vfsResolve cwd path outSize = .ok out) : lookup v out = lookup v (joined cwd path) := by
  have hloop : resolveLoop outSize (components (joined cwd path)) [slash] [] = .ok out := by
    rw [vfsResolve] at h
    split_ifs at h <;> exact h
  have habsolute : (joined cwd path).head? = some slash := by
    rw [joined]
    split
    next hslash => exact hslash
    next =>
      -- a working directory that is found starts with a slash
      rw [lookup] at hcwd
      split_ifs at hcwd with _ hhead
      rw [not_not] at hhead
      rw [head?_append, head?_append, hhead]
      rfl
  obtain ⟨hhead, hwalk⟩ := resolveLoop_spec hv hc hs outSize (fun _ => mem_components) .root hpass
    hloop
  have hlookup : ∀ path : Name, path.head? = some slash →
      lookup v path = walk v rootIno (components path) := by
    intro path hpath
    rw [lookup, if_neg (by simp [hv.mounted]), if_neg (by simp [hpath]), hv.geometry.root_eq]
  rw [hlookup out hhead, hlookup _ habsolute, hwalk]

end Agree

open Mkwfs in
/-- On the small volume: from the subdirectory, through its parent, a `.`, two slashes in a row and
the subdirectory again, to the file `/a`. -/
theorem resolve_agrees_sample :
    vfsResolve (ascii "/d") (ascii "..//./d/../a") 256 = .ok (ascii "/a") ∧
    lookup sample (ascii "/a") = lookup sample (ascii "/d/..//./d/../a") := by
  have hresolve : vfsResolve (ascii "/d") (ascii "..//./d/../a") 256 = .ok (ascii "/a") := by decide
  obtain ⟨hv, hc, hs, -⟩ := sample_intact
  have hroot : sample.view.names.dir rootIno := hs.tree.root_dir
  have hcwd : lookup sample (ascii "/d") = .ok 4 := by decide +kernel
  have hjoined : joined (ascii "/d") (ascii "..//./d/../a") = ascii "/d/..//./d/../a" := by decide
  have hlength : (components (ascii "/d/..//./d/../a")).length = 6 := by decide
  have hwalk : ∀ k < 6, walk sample rootIno ((components (ascii "/d/..//./d/../a")).take k) =
      .ok (if k = 1 ∨ k = 4 then 4 else rootIno) := by
    decide +kernel
  refine ⟨hresolve, hjoined ▸ resolve_agrees hv hc hs hcwd ?_ hresolve⟩
  rw [hjoined]
  intro k hk
  refine ⟨_, hwalk k (hlength ▸ hk), ?_⟩
  split
  · exact sample_isDir
  · exact hroot

end Wos.Wfs
