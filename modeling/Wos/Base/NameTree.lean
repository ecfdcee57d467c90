import Mathlib.Data.Nat.Notation
import Mathlib.Logic.Basic

/-!
# Trees of named entries

A namespace as a graph: directories whose entries name other nodes, and a link from each directory
to its parent. `NameSpace.Tree` says that what can be reached from the root is a tree whose links
are right where they are present, `NameSpace.Linked` that they are present, and `NameSpace.Full`
that everything is reached. The theorems say when the changes a file system makes to its namespace
keep these: names are forgotten, or a node is added, removed or moved.

Only directories that can be reached matter. What a node that is no directory is made to name, and
what nobody can reach, is never looked at.

## Main definitions

* `NameSpace`, `NameSpace.Reach`, `NameSpace.Tree`, `NameSpace.Linked`, `NameSpace.Full`;
* `NameSpace.Below`: the nodes in the subtree of a directory.

## Main results

* `Shrinks.tree`, `Removes.tree`, `Adds.tree`, `Moves.tree` and the same for `Linked` and `Full`:
  the changes that keep a tree;
* `Tree.below_up_iff`: a directory is below another one when its parent is.
-/

namespace Wos

open Option

/-- Nodes, some of them directories, and what directories name. -/
structure NameSpace (ι N : Type*) where
  root : ι
  live : ι → Prop
  dir : ι → Prop
  /-- The entries of a directory, the two links to itself and to its parent apart. -/
  entry : ι → N → Option ι
  /-- The link of a directory to itself. -/
  self : ι → Option ι
  /-- The link of a directory to its parent. -/
  up : ι → Option ι

namespace NameSpace

variable {ι N : Type*}

/-- The directory can be reached from the root in so many steps. -/
inductive Reach (S : NameSpace ι N) : ℕ → ι → Prop
  | root : Reach S 0 S.root
  | step {n : ℕ} {d i : ι} {k : N} : Reach S n d → S.entry d k = some i → S.dir i →
      Reach S (n + 1) i

/-- The directory can be reached from the root. -/
def Reached (S : NameSpace ι N) (d : ι) : Prop := ∃ n, Reach S n d

/-- The directory lies in the subtree of `m`. -/
inductive Below (S : NameSpace ι N) (m : ι) : ι → Prop
  | refl : Below S m m
  | step {d i : ι} {k : N} : Below S m d → S.entry d k = some i → S.dir i → Below S m i

/-- What can be reached is a tree, and the links that are present are right. -/
structure Tree (S : NameSpace ι N) : Prop where
  /-- The root is a directory. -/
  root_dir : S.dir S.root
  /-- Directories are live. -/
  dir_live : ∀ i, S.dir i → S.live i
  /-- `.` names the directory itself. -/
  self_eq : ∀ d i, S.Reached d → S.self d = some i → i = d
  /-- The root is its own parent. -/
  up_root : ∀ p, S.up S.root = some p → p = S.root
  /-- `..` names the directory that holds the entry. -/
  up_eq : ∀ d k i p, S.Reached d → S.entry d k = some i → S.dir i → S.up i = some p → p = d
  /-- Entries name live nodes. -/
  entry_live : ∀ d k i, S.Reached d → S.entry d k = some i → S.live i
  /-- No entry names the root. -/
  entry_ne_root : ∀ d k i, S.Reached d → S.entry d k = some i → i ≠ S.root
  /-- No node has two names. -/
  once : ∀ d d' k k' i, S.Reached d → S.Reached d' → S.entry d k = some i →
    S.entry d' k' = some i → d = d' ∧ k = k'

/-- Every directory that can be reached has its two links. -/
def Linked (S : NameSpace ι N) : Prop := ∀ d, S.Reached d → S.self d ≠ none ∧ S.up d ≠ none

/-- Every live node is named by a directory that can be reached. -/
def Full (S : NameSpace ι N) : Prop :=
  ∀ i, S.live i → i ≠ S.root → ∃ d k, S.Reached d ∧ S.entry d k = some i

variable {S S' : NameSpace ι N} {n : ℕ} {d : ι}

lemma Reach.reached (h : S.Reach n d) : S.Reached d := ⟨n, h⟩

lemma Reached.root (S : NameSpace ι N) : S.Reached S.root := ⟨0, .root⟩

lemma Reached.step {i : ι} {k : N} (h : S.Reached d) (he : S.entry d k = some i)
    (hi : S.dir i) : S.Reached i := by
  obtain ⟨n, hn⟩ := h
  exact ⟨n + 1, hn.step he hi⟩

/-- Induction along the path from the root. -/
lemma Reached.induct {P : ι → Prop} (root : P S.root)
    (step : ∀ d k i, S.Reached d → P d → S.entry d k = some i → S.dir i → P i)
    (h : S.Reached d) : P d := by
  obtain ⟨n, hn⟩ := h
  induction hn with
  | root => exact root
  | step hd he hi ih => exact step _ _ _ hd.reached ih he hi

/-- A namespace whose reachable entries were there before reaches nothing new. -/
lemma Reached.mono (hroot : S'.root = S.root) (h : S'.Reached d)
    (hentry : ∀ e k i, S.Reached e → S'.entry e k = some i → S'.dir i →
      S.Reached i) : S.Reached d := by
  refine h.induct (P := S.Reached) ?_ fun e k i _ ih he hi => hentry e k i ih he hi
  rw [hroot]
  exact .root S

variable {m : ι}

namespace Tree

variable (hT : S.Tree)

include hT

lemma dir_of_reached (h : S.Reached d) : S.dir d :=
  h.induct hT.root_dir fun _ _ _ _ _ _ hi => hi

/-- There is one way to reach a directory, so its depth is a number. -/
lemma depth_unique {m : ℕ} (hm : S.Reach m d) (hn : S.Reach n d) : m = n := by
  induction hm generalizing n with
  | root =>
    cases hn with
    | root => rfl
    | step he hk _ => exact absurd rfl (hT.entry_ne_root _ _ _ he.reached hk)
  | step hd hk _ ih =>
    cases hn with
    | root => exact absurd rfl (hT.entry_ne_root _ _ _ hd.reached hk)
    | step he hk' _ =>
      obtain ⟨rfl, -⟩ := hT.once _ _ _ _ _ hd.reached he.reached hk hk'
      rw [ih he]

/-- No directory is an entry of itself. -/
lemma entry_ne_self {i : ι} {k : N} (h : S.Reached d) (hk : S.entry d k = some i) : i ≠ d := by
  rintro rfl
  obtain ⟨n, hn⟩ := h
  have := hT.depth_unique hn (hn.step hk (hT.dir_of_reached hn.reached))
  omega

/-- The parent of a directory other than the root is one step nearer to it. -/
lemma up_of_reach (hL : S.Linked) (h : S.Reach n d) (hd : d ≠ S.root) :
    ∃ m p k, n = m + 1 ∧ S.Reach m p ∧ S.entry p k = some d ∧ S.up d = some p := by
  obtain ⟨p', hup⟩ := ne_none_iff_exists'.mp (hL d h.reached).2
  cases h with
  | root => exact absurd rfl hd
  | step hp hk hi =>
    obtain rfl := hT.up_eq _ _ _ _ hp.reached hk hi hup
    exact ⟨_, _, _, rfl, hp, hk, hup⟩

/-- Only the root is its own parent. -/
lemma up_ne_self (hL : S.Linked) (h : S.Reached d) (hd : d ≠ S.root) : S.up d ≠ some d := by
  obtain ⟨n, hn⟩ := h
  obtain ⟨m, p, k, rfl, hp, -, hup⟩ := hT.up_of_reach hL hn hd
  rw [hup]
  rintro ⟨⟩
  have := hT.depth_unique hn hp
  omega

omit hT in
lemma reached_of_below (hm : S.Reached m) (h : S.Below m d) : S.Reached d := by
  induction h with
  | refl => exact hm
  | step _ hk hi ih => exact ih.step hk hi

/-- Nothing but the root is above the root. -/
lemma not_below_root (hm : S.Reached m) (hne : m ≠ S.root) : ¬ S.Below m S.root := by
  intro h
  cases h with
  | refl => exact hne rfl
  | step hd hk _ => exact hT.entry_ne_root _ _ _ (reached_of_below hm hd) hk rfl

/-- A directory other than `m` itself is below `m` exactly when its parent is. -/
lemma below_up_iff {p : ι} {k : N} (hm : S.Reached m) (hp : S.Reached p)
    (hk : S.entry p k = some d) (hd : S.dir d) (hne : d ≠ m) : S.Below m d ↔ S.Below m p := by
  constructor
  · intro h
    cases h with
    | refl => exact absurd rfl hne
    | step he hk' _ =>
      obtain ⟨rfl, -⟩ := hT.once _ _ _ _ _ (reached_of_below hm he) hp hk' hk
      exact he
  · intro h
    exact h.step hk hd

/-- A change keeps the tree if the entries found afterwards are old ones with their links, or name a
new node at one place. -/
lemma rewired (new : ι → Prop) (place : Option (ι × N)) (hroot : S'.root = S.root)
    (hdir : S'.dir S.root) (hup : ∀ p, S'.up S.root = some p → p = S.root)
    (hlive : ∀ j, S'.dir j → S'.live j)
    (hself : ∀ e j, S'.Reached e → S'.self e = some j → j = e)
    (hold : ∀ e l j, S'.Reached e → S'.entry e l = some j → ¬ new j → S.Reached e ∧
      S.entry e l = some j ∧ S'.live j ∧
      (S'.dir j → S.dir j ∧ ∀ p, S'.up j = some p → S.up j = some p))
    (hnew : ∀ e l j, S'.Reached e → S'.entry e l = some j → new j → place = some (e, l) ∧
      S'.live j ∧ j ≠ S.root ∧ (S'.dir j → ∀ p, S'.up j = some p → p = e)) : S'.Tree := by
  refine ⟨hroot ▸ hdir, hlive, hself, hroot ▸ hup, ?_, ?_, ?_, ?_⟩
  · intro e l j p he hl hj hp
    by_cases hn : new j
    · exact (hnew e l j he hl hn).2.2.2 hj p hp
    · obtain ⟨he, hl, -, hlinks⟩ := hold e l j he hl hn
      exact hT.up_eq e l j p he hl (hlinks hj).1 ((hlinks hj).2 p hp)
  · intro e l j he hl
    by_cases hn : new j
    · exact (hnew e l j he hl hn).2.1
    · exact (hold e l j he hl hn).2.2.1
  · intro e l j he hl
    rw [hroot]
    by_cases hn : new j
    · exact (hnew e l j he hl hn).2.2.1
    · obtain ⟨he, hl, -⟩ := hold e l j he hl hn
      exact hT.entry_ne_root e l j he hl
  · intro e e' l l' j he he' hl hl'
    by_cases hn : new j
    · have hplace := (hnew e l j he hl hn).1.symm.trans (hnew e' l' j he' hl' hn).1
      exact Prod.mk.inj (some.inj hplace)
    · obtain ⟨he, hl, -⟩ := hold e l j he hl hn
      obtain ⟨he', hl', -⟩ := hold e' l' j he' hl' hn
      exact hT.once e e' l l' j he he' hl hl'

end Tree

/-! ## Forgetting names -/

/-- From `S` to `S'` directories lose entries and links, and gain none. -/
structure Shrinks (S S' : NameSpace ι N) : Prop where
  root_eq : S'.root = S.root
  /-- No node comes or goes. -/
  live_iff : ∀ j, S'.live j ↔ S.live j
  dir_iff : ∀ j, S'.dir j ↔ S.dir j
  /-- The entries that are left name what they named. -/
  entry_sub : ∀ e l j, S.dir e → S'.entry e l = some j → S.entry e l = some j
  self_sub : ∀ e j, S.dir e → S'.self e = some j → S.self e = some j
  up_sub : ∀ e j, S.dir e → S'.up e = some j → S.up e = some j

variable {e : ι}

namespace Shrinks

variable (h : Shrinks S S') (hT : S.Tree)

include h hT

lemma reached_back (he : S'.Reached e) : S.Reached e :=
  he.mono h.root_eq fun e l j he hl hj =>
    he.step (h.entry_sub e l j (hT.dir_of_reached he) hl) ((h.dir_iff j).mp hj)

lemma tree : S'.Tree := by
  refine hT.rewired (fun _ => False) none h.root_eq ((h.dir_iff _).mpr hT.root_dir)
    (fun p hp => hT.up_root p (h.up_sub _ p hT.root_dir hp))
    (fun j hj => (h.live_iff j).mpr (hT.dir_live j ((h.dir_iff j).mp hj))) ?_ ?_
    fun _ _ _ _ _ hnew => hnew.elim
  · intro e j he hj
    have he' := h.reached_back hT he
    exact hT.self_eq e j he' (h.self_sub e j (hT.dir_of_reached he') hj)
  intro e l j he hl _
  have he' := h.reached_back hT he
  have hl' := h.entry_sub e l j (hT.dir_of_reached he') hl
  refine ⟨he', hl', (h.live_iff j).mpr (hT.entry_live e l j he' hl'), fun hj => ?_⟩
  rw [h.dir_iff] at hj
  exact ⟨hj, fun p => h.up_sub j p hj⟩

end Shrinks

/-- The directories of `S'` are those of `S`, with the same entries and links. -/
structure Same (S S' : NameSpace ι N) : Prop where
  root_eq : S'.root = S.root
  live_iff : ∀ j, S'.live j ↔ S.live j
  dir_iff : ∀ j, S'.dir j ↔ S.dir j
  entry_eq : ∀ e l, S.dir e → S'.entry e l = S.entry e l
  self_eq : ∀ e, S.dir e → S'.self e = S.self e
  up_eq : ∀ e, S.dir e → S'.up e = S.up e

namespace Same

variable (h : Same S S')

include h

lemma symm : Same S' S where
  root_eq := h.root_eq.symm
  live_iff j := (h.live_iff j).symm
  dir_iff j := (h.dir_iff j).symm
  entry_eq e l he := (h.entry_eq e l ((h.dir_iff e).mp he)).symm
  self_eq e he := (h.self_eq e ((h.dir_iff e).mp he)).symm
  up_eq e he := (h.up_eq e ((h.dir_iff e).mp he)).symm

lemma shrinks : Shrinks S S' :=
  { h with
    entry_sub e l j he hl := by rwa [h.entry_eq e l he] at hl
    self_sub e j he hj := by rwa [h.self_eq e he] at hj
    up_sub e j he hj := by rwa [h.up_eq e he] at hj }

lemma reached_iff (hT : S.Tree) : S'.Reached e ↔ S.Reached e :=
  ⟨h.shrinks.reached_back hT, h.symm.shrinks.reached_back (h.shrinks.tree hT)⟩

lemma linked (hT : S.Tree) (hL : S.Linked) : S'.Linked := by
  intro e he
  rw [h.reached_iff hT] at he
  have hdir := hT.dir_of_reached he
  rw [h.self_eq e hdir, h.up_eq e hdir]
  exact hL e he

lemma full (hT : S.Tree) (hF : S.Full) : S'.Full := by
  intro j hj hroot
  rw [h.live_iff] at hj
  rw [h.root_eq] at hroot
  obtain ⟨e, l, he, hl⟩ := hF j hj hroot
  exact ⟨e, l, (h.reached_iff hT).mpr he, by rw [h.entry_eq e l (hT.dir_of_reached he), hl]⟩

end Same

/-! ## Removing a node -/

/-- From `S` to `S'` the node `i` is removed together with its entry `k` in `d`. -/
structure Removes (S S' : NameSpace ι N) (d : ι) (k : N) (i : ι) : Prop where
  /-- The directory can be reached. -/
  reached : S.Reached d
  /-- The node has the name. -/
  named : S.entry d k = some i
  root_eq : S'.root = S.root
  /-- The node alone goes. -/
  live_iff : ∀ j, S'.live j ↔ S.live j ∧ j ≠ i
  dir_iff : ∀ j, S'.dir j ↔ S.dir j ∧ j ≠ i
  /-- The name is free afterwards. -/
  cut : S'.entry d k = none
  /-- Every other entry stays. -/
  entry_eq : ∀ e l, S.dir e → e ≠ i → ¬ (e = d ∧ l = k) → S'.entry e l = S.entry e l
  self_eq : ∀ e, S.dir e → e ≠ i → S'.self e = S.self e
  up_eq : ∀ e, S.dir e → e ≠ i → S'.up e = S.up e

variable {j : ι} {l : N}

namespace Removes

variable {d i : ι} {k : N} (h : Removes S S' d k i) (hT : S.Tree)

include h hT

lemma root_ne : S.root ≠ i := (hT.entry_ne_root d k i h.reached h.named).symm

/-- An entry found afterwards was there before, and names another node. -/
lemma entry_back (he : S.Reached e) (hne : e ≠ i)
    (hl : S'.entry e l = some j) : S.entry e l = some j ∧ j ≠ i := by
  have hkept : ¬ (e = d ∧ l = k) := by
    rintro ⟨rfl, rfl⟩
    rw [h.cut] at hl
    cases hl
  rw [h.entry_eq e l (hT.dir_of_reached he) hne hkept] at hl
  refine ⟨hl, ?_⟩
  rintro rfl
  exact hkept (hT.once _ _ _ _ _ he h.reached hl h.named)

lemma reached_back (he : S'.Reached e) : S.Reached e ∧ e ≠ i := by
  refine he.induct (P := fun e => S.Reached e ∧ e ≠ i) ?_ ?_
  · rw [h.root_eq]
    exact ⟨.root S, h.root_ne hT⟩
  · intro e l j _ ih hl hj
    obtain ⟨hl', hji⟩ := h.entry_back hT ih.1 ih.2 hl
    exact ⟨ih.1.step hl' ((h.dir_iff j).mp hj).1, hji⟩

lemma below_back (hm : S'.Reached m) (hb : S'.Below m e) : S.Below m e := by
  induction hb with
  | refl => exact .refl
  | step hb hl hj ih =>
    obtain ⟨he, hne⟩ := h.reached_back hT (Tree.reached_of_below hm hb)
    exact ih.step (h.entry_back hT he hne hl).1 ((h.dir_iff _).mp hj).1

/-- What is left is a tree. -/
lemma tree : S'.Tree := by
  refine hT.rewired (fun _ => False) none h.root_eq
    ((h.dir_iff _).mpr ⟨hT.root_dir, h.root_ne hT⟩) ?_ (fun j hj => ?_) ?_ ?_
    fun _ _ _ _ _ hnew => hnew.elim
  · rw [h.up_eq _ hT.root_dir (h.root_ne hT)]
    exact hT.up_root
  · obtain ⟨hj', hji⟩ := (h.dir_iff j).mp hj
    exact (h.live_iff j).mpr ⟨hT.dir_live j hj', hji⟩
  · intro e j he hj
    obtain ⟨he', hei⟩ := h.reached_back hT he
    rw [h.self_eq e (hT.dir_of_reached he') hei] at hj
    exact hT.self_eq e j he' hj
  · intro e l j he hl _
    obtain ⟨he', hei⟩ := h.reached_back hT he
    obtain ⟨hl', hji⟩ := h.entry_back hT he' hei hl
    refine ⟨he', hl', (h.live_iff j).mpr ⟨hT.entry_live e l j he' hl', hji⟩, fun hj => ?_⟩
    have hj' := ((h.dir_iff j).mp hj).1
    exact ⟨hj', fun p hp => by rwa [h.up_eq j hj' hji] at hp⟩

lemma linked (hL : S.Linked) : S'.Linked := by
  intro e he
  obtain ⟨he', hei⟩ := h.reached_back hT he
  have hdir := hT.dir_of_reached he'
  rw [h.self_eq e hdir hei, h.up_eq e hdir hei]
  exact hL e he'

/-- When the removed node names nothing itself, an entry that names another node is kept: neither
is it cut, nor does the removed node hold it. -/
lemma entry_forth (hleaf : S.dir i → ∀ l, S.entry i l = none) (he : S.Reached e)
    (hl : S.entry e l = some j) (hji : j ≠ i) :
    e ≠ i ∧ S'.entry e l = some j := by
  have hei : e ≠ i := by
    rintro rfl
    rw [hleaf (hT.dir_of_reached he) l] at hl
    cases hl
  have hkept : ¬ (e = d ∧ l = k) := by
    rintro ⟨rfl, rfl⟩
    rw [h.named] at hl
    exact hji (some.inj hl).symm
  exact ⟨hei, by rw [h.entry_eq e l (hT.dir_of_reached he) hei hkept, hl]⟩

lemma reach_forth (hleaf : S.dir i → ∀ l, S.entry i l = none) (he : S.Reach n e)
    (hei : e ≠ i) : S'.Reach n e := by
  induction he with
  | root =>
    rw [← h.root_eq]
    exact .root
  | step he hl hj ih =>
    obtain ⟨hne, hl'⟩ := h.entry_forth hT hleaf he.reached hl hei
    exact (ih hne).step hl' ((h.dir_iff _).mpr ⟨hj, hei⟩)

/-- When the removed node names nothing itself, everything else is still reached. -/
lemma full (hF : S.Full) (hleaf : S.dir i → ∀ l, S.entry i l = none) : S'.Full := by
  intro j hj hjroot
  rw [h.root_eq] at hjroot
  obtain ⟨hj', hji⟩ := (h.live_iff j).mp hj
  obtain ⟨e, l, ⟨n, he⟩, hl⟩ := hF j hj' hjroot
  obtain ⟨hei, hl'⟩ := h.entry_forth hT hleaf he.reached hl hji
  exact ⟨e, l, (h.reach_forth hT hleaf he hei).reached, hl'⟩

end Removes

/-! ## Adding a node -/

/-- From `S` to `S'` the node `i`, which was not live, is added as entry `k` of `d`. A new
directory names nothing yet but itself and its parent. When `d` is no directory, the node is live
but out of reach. -/
structure Adds (S S' : NameSpace ι N) (d : ι) (k : N) (i : ι) : Prop where
  /-- The node was not live. -/
  fresh : ¬ S.live i
  /-- The name was free. -/
  vacant : S.dir d → S.entry d k = none
  root_eq : S'.root = S.root
  /-- The node alone comes. -/
  live_iff : ∀ j, S'.live j ↔ S.live j ∨ j = i
  dir_iff : ∀ j, j ≠ i → (S'.dir j ↔ S.dir j)
  /-- The node has the name, if there is a directory to hold it. -/
  named : S.dir d → S'.entry d k = some i
  /-- Every other entry stays. -/
  entry_eq : ∀ e l, S.dir e → ¬ (e = d ∧ l = k) → S'.entry e l = S.entry e l
  self_eq : ∀ e, S.dir e → S'.self e = S.self e
  up_eq : ∀ e, S.dir e → S'.up e = S.up e
  /-- A new directory is empty. -/
  new_entry : S'.dir i → ∀ l, S'.entry i l = none
  /-- Its `.` names itself. -/
  new_self : S'.dir i → S'.self i = some i
  /-- Its `..` names the directory that holds it. -/
  new_up : S'.dir i → S'.up i = some d

namespace Adds

variable {d i : ι} {k : N} (h : Adds S S' d k i) (hT : S.Tree)

include h hT

lemma not_dir : ¬ S.dir i := fun hi => h.fresh (hT.dir_live i hi)

lemma root_ne : S.root ≠ i := fun hr => h.not_dir hT (hr ▸ hT.root_dir)

/-- An entry of a directory that was reached is the new one, or an old one of another node. -/
lemma entry_old (he : S.Reached e) (hl : S'.entry e l = some j) :
    (e = d ∧ l = k ∧ j = i) ∨ (S.entry e l = some j ∧ j ≠ i) := by
  by_cases hnew : e = d ∧ l = k
  · obtain ⟨rfl, rfl⟩ := hnew
    rw [h.named (hT.dir_of_reached he)] at hl
    exact .inl ⟨rfl, rfl, (some.inj hl).symm⟩
  · rw [h.entry_eq e l (hT.dir_of_reached he) hnew] at hl
    refine .inr ⟨hl, ?_⟩
    rintro rfl
    exact h.fresh (hT.entry_live e l j he hl)

/-- A directory reached afterwards was reached before, or is the new one. -/
lemma reached_back (he : S'.Reached e) : S.Reached e ∨ (e = i ∧ S'.dir i ∧ S.Reached d) := by
  refine he.induct (P := fun e => S.Reached e ∨ (e = i ∧ S'.dir i ∧ S.Reached d)) ?_ ?_
  · rw [h.root_eq]
    exact .inl (.root S)
  intro e l j _ ih hl hj
  rcases ih with he | ⟨rfl, hi, -⟩
  · rcases h.entry_old hT he hl with ⟨rfl, rfl, rfl⟩ | ⟨hl, hji⟩
    · exact .inr ⟨rfl, hj, he⟩
    · exact .inl (he.step hl ((h.dir_iff j hji).mp hj))
  · rw [h.new_entry hi l] at hl
    cases hl

/-- An entry of a reached directory is the new one or an old one. -/
lemma entry_back (he : S'.Reached e) (hl : S'.entry e l = some j) :
    (e = d ∧ l = k ∧ j = i ∧ S.Reached d) ∨ (S.Reached e ∧ S.entry e l = some j ∧ j ≠ i) := by
  rcases h.reached_back hT he with he | ⟨rfl, hi, -⟩
  · rcases h.entry_old hT he hl with ⟨rfl, rfl, rfl⟩ | hold
    · exact .inl ⟨rfl, rfl, rfl, he⟩
    · exact .inr ⟨he, hold⟩
  · rw [h.new_entry hi l] at hl
    cases hl

/-- Adding a node keeps the tree. -/
lemma tree : S'.Tree := by
  refine hT.rewired (· = i) (some (d, k)) h.root_eq ((h.dir_iff _ (h.root_ne hT)).mpr hT.root_dir)
    ?_ (fun j hj => ?_) ?_ ?_ ?_
  · rw [h.up_eq _ hT.root_dir]
    exact hT.up_root
  · by_cases hji : j = i
    · exact (h.live_iff j).mpr (.inr hji)
    · exact (h.live_iff j).mpr (.inl (hT.dir_live j ((h.dir_iff j hji).mp hj)))
  · intro e j he hj
    rcases h.reached_back hT he with he | ⟨rfl, hi, -⟩
    · rw [h.self_eq e (hT.dir_of_reached he)] at hj
      exact hT.self_eq e j he hj
    · rw [h.new_self hi] at hj
      exact (some.inj hj).symm
  · intro e l j he hl hji
    obtain ⟨he, hl, -⟩ := (h.entry_back hT he hl).resolve_left fun hnew => hji hnew.2.2.1
    refine ⟨he, hl, (h.live_iff j).mpr (.inl (hT.entry_live e l j he hl)), fun hj => ?_⟩
    have hj' := (h.dir_iff j hji).mp hj
    exact ⟨hj', fun p hp => by rwa [h.up_eq j hj'] at hp⟩
  · rintro e l j he hl rfl
    obtain ⟨rfl, rfl, -⟩ := (h.entry_back hT he hl).resolve_right fun hold => hold.2.2 rfl
    refine ⟨rfl, (h.live_iff j).mpr (.inr rfl), (h.root_ne hT).symm, fun hj p hp => ?_⟩
    rw [h.new_up hj] at hp
    exact (some.inj hp).symm

lemma linked (hL : S.Linked) : S'.Linked := by
  intro e he
  rcases h.reached_back hT he with he | ⟨rfl, hi, -⟩
  · have hdir := hT.dir_of_reached he
    rw [h.self_eq e hdir, h.up_eq e hdir]
    exact hL e he
  · rw [h.new_self hi, h.new_up hi]
    exact ⟨some_ne_none _, some_ne_none _⟩

/-- Old entries are kept: the new one is written where there was none. -/
lemma entry_forth (he : S.Reached e) (hl : S.entry e l = some j) : S'.entry e l = some j := by
  have hold : ¬ (e = d ∧ l = k) := by
    rintro ⟨rfl, rfl⟩
    rw [h.vacant (hT.dir_of_reached he)] at hl
    cases hl
  rw [h.entry_eq e l (hT.dir_of_reached he) hold, hl]

lemma reached_forth (he : S.Reached e) : S'.Reached e := by
  refine he.induct (P := S'.Reached) ?_ ?_
  · rw [← h.root_eq]
    exact .root S'
  intro e l j he ih hl hj
  refine ih.step (h.entry_forth hT he hl) ((h.dir_iff j ?_).mpr hj)
  rintro rfl
  exact h.not_dir hT hj

/-- When the directory is reached, so is the new node, and nothing is lost. -/
lemma full (hF : S.Full) (hd : S.Reached d) : S'.Full := by
  intro j hj hjroot
  rw [h.root_eq] at hjroot
  rcases (h.live_iff j).mp hj with hj | rfl
  · obtain ⟨e, l, he, hl⟩ := hF j hj hjroot
    exact ⟨e, l, h.reached_forth hT he, h.entry_forth hT he hl⟩
  · exact ⟨d, k, h.reached_forth hT hd, h.named (hT.dir_of_reached hd)⟩

end Adds

/-! ## Moving a node -/

/-- From `S` to `S'` the node `m` moves from entry `k` of `d` to entry `k'` of `d'`. -/
structure Moves (S S' : NameSpace ι N) (d : ι) (k : N) (m d' : ι) (k' : N) : Prop where
  /-- The old directory can be reached. -/
  reached : S.Reached d
  /-- The node has the old name. -/
  named : S.entry d k = some m
  /-- The new name was free. -/
  vacant : S.dir d' → S.entry d' k' = none
  root_eq : S'.root = S.root
  /-- No node comes or goes. -/
  live_iff : ∀ j, S'.live j ↔ S.live j
  dir_iff : ∀ j, S'.dir j ↔ S.dir j
  /-- The old name is free afterwards. -/
  cut : S'.entry d k = none
  /-- The node has the new name, if there is a directory to hold it. -/
  moved : S.dir d' → S'.entry d' k' = some m
  /-- Every other entry stays. -/
  entry_eq : ∀ e l, S.dir e → ¬ (e = d ∧ l = k) → ¬ (e = d' ∧ l = k') →
    S'.entry e l = S.entry e l
  self_eq : ∀ e, S.dir e → S'.self e = S.self e
  /-- Every other directory keeps its parent. -/
  up_eq : ∀ e, S.dir e → e ≠ m → S'.up e = S.up e
  /-- `..` of a directory that moves names the new parent. -/
  up_new : S.dir m → ∀ p, S'.up m = some p → p = d'

namespace Moves

variable {d m d' : ι} {k k' : N} (h : Moves S S' d k m d' k') (hT : S.Tree)

include h hT

/-- An entry of a directory that was reached is the moved one, or an old one of another node. -/
lemma entry_back (he : S.Reached e) (hl : S'.entry e l = some j) :
    (e = d' ∧ l = k' ∧ j = m) ∨ (S.entry e l = some j ∧ j ≠ m) := by
  have hdir := hT.dir_of_reached he
  by_cases hnew : e = d' ∧ l = k'
  · obtain ⟨rfl, rfl⟩ := hnew
    rw [h.moved hdir] at hl
    exact .inl ⟨rfl, rfl, (some.inj hl).symm⟩
  have hkept : ¬ (e = d ∧ l = k) := by
    rintro ⟨rfl, rfl⟩
    rw [h.cut] at hl
    cases hl
  rw [h.entry_eq e l hdir hkept hnew] at hl
  refine .inr ⟨hl, ?_⟩
  rintro rfl
  exact hkept (hT.once _ _ _ _ _ he h.reached hl h.named)

lemma reached_back (he : S'.Reached e) : S.Reached e := by
  refine he.mono h.root_eq fun e l j he hl hj => ?_
  rw [h.dir_iff] at hj
  rcases h.entry_back hT he hl with ⟨-, -, rfl⟩ | ⟨hl, -⟩
  · exact h.reached.step h.named hj
  · exact he.step hl hj

/-- Moving a node keeps the tree, wherever it goes: when it is moved out of reach, less is
reached than before. -/
lemma tree : S'.Tree := by
  have hroot := hT.entry_ne_root d k m h.reached h.named
  refine hT.rewired (· = m) (some (d', k')) h.root_eq ((h.dir_iff _).mpr hT.root_dir) ?_
    (fun j hj => (h.live_iff j).mpr (hT.dir_live j ((h.dir_iff j).mp hj))) ?_ ?_ ?_
  · rw [h.up_eq _ hT.root_dir hroot.symm]
    exact hT.up_root
  · intro e j he hj
    have he' := h.reached_back hT he
    rw [h.self_eq e (hT.dir_of_reached he')] at hj
    exact hT.self_eq e j he' hj
  · intro e l j he hl hjm
    have he' := h.reached_back hT he
    obtain ⟨hl, -⟩ := (h.entry_back hT he' hl).resolve_left fun hnew => hjm hnew.2.2
    refine ⟨he', hl, (h.live_iff j).mpr (hT.entry_live e l j he' hl), fun hj => ?_⟩
    rw [h.dir_iff] at hj
    exact ⟨hj, fun p hp => by rwa [h.up_eq j hj hjm] at hp⟩
  · rintro e l j he hl rfl
    obtain ⟨rfl, rfl, -⟩ :=
      (h.entry_back hT (h.reached_back hT he) hl).resolve_right fun hold => hold.2 rfl
    refine ⟨rfl, (h.live_iff j).mpr (hT.entry_live d k j h.reached h.named), hroot, fun hj => ?_⟩
    exact h.up_new ((h.dir_iff j).mp hj)

lemma linked (hL : S.Linked) (hup : S.dir m → S'.up m ≠ none) : S'.Linked := by
  intro e he
  have he' := h.reached_back hT he
  have hdir := hT.dir_of_reached he'
  rw [h.self_eq e hdir]
  refine ⟨(hL e he').1, ?_⟩
  by_cases hem : e = m
  · rw [hem] at hdir ⊢
    exact hup hdir
  · rw [h.up_eq e hdir hem]
    exact (hL e he').2

/-- An old entry that names another node is kept. -/
lemma entry_kept (he : S.Reached e) (hl : S.entry e l = some j)
    (hjm : j ≠ m) : S'.entry e l = some j := by
  have hdir := hT.dir_of_reached he
  have hkept : ¬ (e = d ∧ l = k) := by
    rintro ⟨rfl, rfl⟩
    rw [h.named] at hl
    exact hjm (some.inj hl).symm
  have hold : ¬ (e = d' ∧ l = k') := by
    rintro ⟨rfl, rfl⟩
    rw [h.vacant hdir] at hl
    cases hl
  rw [h.entry_eq e l hdir hkept hold, hl]

/-- When the node does not move into its own subtree, everything is still reached. -/
lemma reached_forth (hd' : S.Reached d') (hbelow : S.dir m → ¬ S.Below m d')
    (he : S.Reached e) : S'.Reached e := by
  -- first what is not below the moved node, then the node, then what is below it
  have haside : ∀ e, S.Reached e → ¬ (S.dir m ∧ S.Below m e) → S'.Reached e := by
    intro e he
    refine he.induct (P := fun e => ¬ (S.dir m ∧ S.Below m e) → S'.Reached e) ?_ ?_
    · intro _
      rw [← h.root_eq]
      exact .root S'
    intro e l j he ih hl hj hnot
    have hjm : j ≠ m := by
      rintro rfl
      exact hnot ⟨hj, .refl⟩
    refine (ih fun hb => hnot ⟨hb.1, hb.2.step hl hj⟩).step (h.entry_kept hT he hl hjm) ?_
    exact (h.dir_iff j).mpr hj
  have hm : S.dir m → S'.Reached m := fun hm =>
    (haside d' hd' fun hb => hbelow hm hb.2).step (h.moved (hT.dir_of_reached hd'))
      ((h.dir_iff m).mpr hm)
  by_cases hb : S.dir m ∧ S.Below m e
  · obtain ⟨hmdir, hb⟩ := hb
    have hmr := h.reached.step h.named hmdir
    induction hb with
    | refl => exact hm hmdir
    | @step e j l hbe hl hj ih =>
      by_cases hjm : j = m
      · rw [hjm]
        exact hm hmdir
      · have her := Tree.reached_of_below hmr hbe
        exact (ih her).step (h.entry_kept hT her hl hjm) ((h.dir_iff j).mpr hj)
  · exact haside e he hb

lemma full (hF : S.Full) (hd' : S.Reached d') (hbelow : S.dir m → ¬ S.Below m d') : S'.Full := by
  intro j hj hjroot
  rw [h.root_eq] at hjroot
  rw [h.live_iff] at hj
  by_cases hjm : j = m
  · rw [hjm]
    exact ⟨d', k', h.reached_forth hT hd' hbelow hd', h.moved (hT.dir_of_reached hd')⟩
  · obtain ⟨e, l, he, hl⟩ := hF j hj hjroot
    exact ⟨e, l, h.reached_forth hT hd' hbelow he, h.entry_kept hT he hl hjm⟩

end Moves

end NameSpace

end Wos
