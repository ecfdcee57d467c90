import Wos.Wayland.Sway

/-!
# The compositor: no object is used after it is gone

Which destructions the shell survives. A surface has to outlive the objects made for it, an
`xdg_surface` its toplevel, a fullscreen window has to be in the tree, and a client that goes may
leave neither a frame callback nor two windows behind. Under these conditions no handler reads
through a pointer to a dead object, in any run.

The runs are of what clients do, requests and disconnects. Events of the keyboard, of the mouse and
of the IPC socket are left out: the workspace never changes, no window is made fullscreen on another
workspace, and `pointer_focus` is not kept.

## Main definitions

* `Sway.ResOk`, `Sway.ViewOk`, `Sway.Inv`: what the pointers the shell keeps point to;
* `Sway.Changes`: a step that changes one resource, one buffer and one view;
* `Sway.careful`: the conditions.

## Main results

* `Sway.Inv.frame`: what such a step has to show;
* `Sway.Inv.exec`: a careful event has a result, and keeps the invariant;
* `no_dead_object_used`: so does every run of such events.
-/

namespace Wos.Wayland

open Function List
open Option hiding all_eq_true

namespace Sway

/-- A resource is what its name says, and what it points to is alive. `gone` is the client that is
being disconnected, if any: its own windows may point to resources that are freed already. -/
structure ResOk (next : ℕ) (views : ℕ → Option View) (buffers : ℕ → Option Bool) (gone : Option ℕ)
    (h : ℕ) (r : Res) : Prop where
  /-- The name is the handle, and the counter is past it. -/
  handle : r.handle = h ∧ h < next
  /-- A surface has its view. -/
  surface : r.interface = .surface → r.data = some (.view h) ∧ ∃ v, views h = some v
  /-- A buffer resource has its buffer. -/
  buffer : r.interface = .buffer → r.data = some (.buffer h) ∧ buffers h ≠ none
  /-- The objects of a window have a view of their client, which knows its `xdg_surface`. -/
  role : some r.client ≠ gone → r.interface = .xdgSurface ∨ r.interface = .toplevel →
    ∃ n v, r.data = some (.view n) ∧ views n = some v ∧ v.client = r.client ∧
      (r.interface = .xdgSurface → v.xdgSurface = some h)

/-- What a view points to is alive. -/
structure ViewOk (res : ℕ → Option Res) (buffers : ℕ → Option Bool) (gone : Option ℕ) (n : ℕ)
    (v : View) : Prop where
  /-- A view is named by its surface. -/
  own : ∃ r, res n = some r ∧ r.interface = .surface ∧ r.client = v.client
  /-- Its toplevel points back to it. -/
  toplevel : ∀ t, some v.client ≠ gone → v.toplevel = some t →
    ∃ r, res t = some r ∧ r.interface = .toplevel ∧ r.data = some (.view n) ∧
      r.client = v.client
  /-- So does its `xdg_surface`, while it has a toplevel. -/
  xdg : ∀ x, some v.client ≠ gone → v.toplevel ≠ none → v.xdgSurface = some x →
    ∃ r, res x = some r ∧ r.interface = .xdgSurface ∧ r.data = some (.view n) ∧
      r.client = v.client
  /-- Its pending and current pointers are buffers. -/
  shown : ∀ p, v.pending = some p ∨ v.current = some p → ∃ m, p = .buffer m ∧ buffers m ≠ none

/-- The invariant. -/
structure Inv (gone : Option ℕ) (s : Sway) : Prop where
  res : ∀ h r, s.res h = some r → ResOk s.next s.views s.buffers gone h r
  view : ∀ n v, s.views n = some v → ViewOk s.res s.buffers gone n v
  /-- A buffer is named by its resource. -/
  held : ∀ m, s.buffers m ≠ none → ∃ r, s.res m = some r ∧ r.interface = .buffer
  /-- The frame callbacks are alive, and of clients that are there. -/
  frames : s.frames.Nodup ∧
    ∀ h ∈ s.frames, ∃ r, s.res h = some r ∧ r.interface = .callback ∧ some r.client ≠ gone
  /-- No window is in the tree twice. -/
  nodup : s.leaves.Nodup
  /-- The windows in the tree are views that are mapped. -/
  leaves : ∀ n ∈ s.leaves, ∃ v, s.views n = some v ∧ v.mapped = true
  /-- Focus and fullscreen are windows in the tree. -/
  places : ∀ n, s.focus = some n ∨ s.fullscreen = some n ∨ s.focused = some n → n ∈ s.leaves

variable {s s' : Sway} {gone : Option ℕ}

/-! ## The layout -/

lemma Inv.next_free (h : Inv gone s) :
    s.res s.next = none ∧ s.views s.next = none ∧ s.buffers s.next = none := by
  have h1 : s.res s.next = none := by
    cases hr : s.res s.next with
    | none => rfl
    | some r => exact absurd (h.res _ _ hr).handle.2 (lt_irrefl _)
  refine ⟨h1, ?_, ?_⟩
  · cases hv : s.views s.next with
    | none => rfl
    | some v => simpa [h1] using (h.view _ _ hv).own
  · by_contra hb
    simpa [h1] using h.held _ hb

variable {n : ℕ} {v : View}

lemma Inv.configures (h : Inv gone s) (hv : s.views n = some v)
    (hc : some v.client ≠ gone) : s.configures n = true := by
  have ht := (h.view n v hv).toplevel
  have hx := (h.view n v hv).xdg
  unfold Sway.configures
  grind

/-- The next window is another one. -/
lemma successor_mem {l : List ℕ} {m : ℕ} (hn : n ∈ l) (hd : l.Nodup)
    (h : successor l n = some m) : m ∈ l.erase n := by
  obtain ⟨a, b, rfl⟩ := append_of_mem hn
  have ha : n ∉ a := fun hm => disjoint_of_nodup_append hd hm mem_cons_self
  have htake : (a ++ n :: b).takeWhile (· ≠ n) = a := by
    rw [takeWhile_append_of_pos (by simpa using fun x hx (h : x = n) => ha (h ▸ hx))]
    simp
  have hdrop : (a ++ n :: b).dropWhile (· ≠ n) = n :: b := by
    rw [dropWhile_append_of_pos (by simpa using fun x hx (h : x = n) => ha (h ▸ hx))]
    simp
  rw [successor, htake, hdrop] at h
  rw [erase_append_right _ ha, erase_cons_head] at h ⊢
  rw [mem_append]
  rcases or_eq_some_iff.mp h with h | ⟨-, h⟩
  · rcases or_eq_some_iff.mp h with h | ⟨-, h⟩
    · exact .inr (mem_of_head? h)
    · exact .inl (mem_of_getLast? h)
  · exact mem_append.mp (mem_of_head? h)

lemma layoutFocus_eq {n : Option ℕ} (hold : s.focused.all s.configures = true)
    (hnew : n.all s.configures = true) :
    s.layoutFocus n = some { s with
      focused := n, focus := if s.focused = n then s.focus else n.or s.focus } := by
  unfold layoutFocus
  split_ifs with hsame
  · subst hsame
    rfl
  · simp_all
  · simp_all

/-- A window leaves the tree. The others are configured on the way. -/
lemma Inv.removeView (h : Inv gone s) (hv : s.views n = some v)
    (hcalm : n ∈ s.leaves → ∀ m ∈ s.leaves, m ≠ n → s.configures m = true) :
    ∃ s', s.layoutRemoveView n = some s' ∧ Inv gone s' ∧ SameObjects s s' ∧ n ∉ s'.leaves ∧
      s'.leaves ⊆ s.leaves := by
  unfold layoutRemoveView
  rw [if_neg (by simp [hv])]
  by_cases hn : n ∈ s.leaves
  swap
  · exact ⟨s, by simp [hn], h, ⟨rfl, rfl, rfl, rfl, rfl⟩, hn, fun _ h => h⟩
  rw [if_neg (by simpa using hn)]
  replace hcalm := hcalm hn
  have hmem : ∀ m, m ∈ s.leaves.erase n ↔ m ≠ n ∧ m ∈ s.leaves := fun m => h.nodup.mem_erase_iff
  have hsucc := fun m => successor_mem (m := m) hn h.nodup
  have hplaces := h.places
  generalize hf : (if s.focus = some n ∨ s.focus = none then successor s.leaves n else s.focus) = f
  have hfin : ∀ m, f = some m → m ∈ s.leaves.erase n := by grind
  have hopt : ∀ o : Option ℕ, (∀ m, o = some m → m ∈ s.leaves.erase n) →
      o.all s.configures = true := by
    refine fun o ho => (Option.all_eq_true ..).mpr fun m hm => ?_
    exact hcalm m ((hmem m).mp (ho m hm)).2 ((hmem m).mp (ho m hm)).1
  generalize hg : (if s.fullscreen = some n then none else s.fullscreen) = g
  generalize hk : (if s.focused = some n then none else s.focused) = k
  have hgin : ∀ m, g = some m → m ∈ s.leaves.erase n := by grind
  have hkin : ∀ m, k = some m → m ∈ s.leaves.erase n := by grind
  have hfocus := layoutFocus_eq (n := f) (s := { s with
    leaves := s.leaves.erase n, focus := f, fullscreen := g, focused := k }) (hopt k hkin)
    (hopt f hfin)
  rw [if_pos (by cases f <;> simp_all), hfocus]
  refine ⟨_, if_pos ?_, ?_, ⟨rfl, rfl, rfl, rfl, rfl⟩, ?_, erase_subset⟩
  · rw [Bool.and_eq_true, all_eq_true]
    exact ⟨hopt g hgin, fun m hm => hcalm m ((hmem m).mp hm).2 ((hmem m).mp hm).1⟩
  · have hl := h.leaves
    refine { h with nodup := h.nodup.erase n, leaves := ?_, places := ?_ } <;> grind
  · simp [hmem]

/-- A new window. -/
lemma Inv.addView (h : Inv none s) (hv : s.views n = some v) (hm : v.mapped = true)
    (hn : n ∉ s.leaves) :
    ∃ s', s.layoutAddView n = some s' ∧ Inv none s' := by
  have hall : ∀ m ∈ n :: s.leaves, s.configures m = true := by
    intro m hm
    have hl := h.leaves m
    obtain ⟨w, hw⟩ : ∃ w, s.views m = some w := by grind
    exact h.configures hw (by simp)
  have hplaces := h.places
  have hopt : ∀ o : Option ℕ, (∀ m, o = some m → m ∈ s.leaves) → o.all s.configures = true :=
    fun o ho => (Option.all_eq_true ..).mpr fun m hm => hall m (mem_cons_of_mem _ (ho m hm))
  have hnd := h.nodup
  have hl := h.leaves
  -- the two ways to insert differ only in where the window goes
  have hgo : ∀ l : List ℕ, l.Nodup → (∀ m, m ∈ l ↔ m = n ∨ m ∈ s.leaves) →
      ∃ s', (layoutFocus { s with leaves := l, focus := some n } (some n)).bind layoutArrange
        = some s' ∧ Inv none s' := by
    intro l hld hlm
    rw [layoutFocus_eq (n := some n) (s := { s with leaves := l, focus := some n })
      (hopt s.focused (by grind)) (hall n mem_cons_self)]
    refine ⟨_, if_pos ?_, ?_⟩
    · rw [Bool.and_eq_true, all_eq_true]
      exact ⟨hopt s.fullscreen (by grind), fun m hm => hall m (by grind)⟩
    · refine { h with nodup := hld, leaves := ?_, places := ?_ } <;> grind
  unfold layoutAddView
  cases hf : s.focus with
  | none =>
    refine hgo (s.leaves ++ [n]) ?_ (by simp [or_comm])
    exact nodup_append.mpr ⟨hnd, by simp, by grind⟩
  | some f =>
    have hin : f ∈ s.leaves := hplaces f (.inl hf)
    simp only [hin, if_true]
    refine hgo _ ?_ (by grind)
    obtain ⟨a, b, hab⟩ := append_of_mem hin
    have hflat : ∀ l : List ℕ, f ∉ l → (l.flatMap fun m => if m = f then [m, n] else [m]) = l := by
      intro l hl
      induction l with
      | nil => rfl
      | cons x l ih => grind
    rw [hab] at hnd hn ⊢
    have hfa : f ∉ a := fun hm => disjoint_of_nodup_append hnd hm mem_cons_self
    rw [flatMap_append, hflat a hfa, flatMap_cons, hflat b (by grind)]
    grind

/-! ## What a step may change -/

/-- The resource and the buffer named `k` and the view named `n` are all that changes. -/
structure Changes (k n : ℕ) (s s' : Sway) : Prop where
  /-- Names are not given out again. -/
  next : s.next ≤ s'.next
  res : ∀ x ≠ k, s'.res x = s.res x
  buffers : ∀ x ≠ k, s'.buffers x = s.buffers x
  views : ∀ m ≠ n, s'.views m = s.views m
  /-- No frame callback comes or goes. -/
  frames : s'.frames = s.frames
  /-- The layout stays. -/
  layout : s'.leaves = s.leaves ∧ s'.focus = s.focus ∧ s'.fullscreen = s.fullscreen ∧
    s'.focused = s.focused

/-- A view does not point to `k`. -/
def Unseen (gone : Option ℕ) (k : ℕ) (v : View) : Prop :=
  (some v.client ≠ gone → v.toplevel ≠ some k ∧ (v.toplevel ≠ none → v.xdgSurface ≠ some k)) ∧
    ¬ (v.pending = some (.buffer k) ∨ v.current = some (.buffer k))

/-- The frame rule: what has changed has to satisfy the invariant, no other view may point to the
resource, and what points to the view has to find it as before. -/
lemma Inv.frame {k : ℕ} (h : Inv gone s) (hc : Changes k n s s') (hframe : k ∉ s.frames)
    (hres : ∀ r, s'.res k = some r → ResOk s'.next s'.views s'.buffers gone k r)
    (hheld : s'.buffers k ≠ none → ∃ r, s'.res k = some r ∧ r.interface = .buffer)
    (hview : ∀ v, s'.views n = some v → ViewOk s'.res s'.buffers gone n v)
    (hleaf : n ∈ s.leaves → ∃ v, s'.views n = some v ∧ v.mapped = true)
    (hto : ∀ m ≠ n, ∀ v, s.views m = some v → m ≠ k ∧ Unseen gone k v)
    (hfrom : ∀ x ≠ k, ∀ r, s.res x = some r →
      (r.interface = .surface → x = n → ∃ v, s'.views n = some v) ∧
      (some r.client ≠ gone → r.interface = .xdgSurface ∨ r.interface = .toplevel →
        r.data = some (.view n) → ∃ v, s'.views n = some v ∧ v.client = r.client ∧
          (r.interface = .xdgSurface → v.xdgSurface = some x))) :
    Inv gone s' := by
  obtain ⟨hnext, hcres, hcbuf, hcview, hframes, hleaves, hfocus, hfull, hfocused⟩ := hc
  constructor
  · intro x r hr
    by_cases hx : x = k
    · exact hx ▸ hres r (hx ▸ hr)
    · obtain ⟨h1, h2, h3, h4⟩ := h.res x r (hcres x hx ▸ hr)
      constructor <;> grind
  · intro m v hv
    by_cases hm : m = n
    · exact hm ▸ hview v (hm ▸ hv)
    · obtain ⟨h1, h2, h3, h4⟩ := h.view m v (hcview m hm ▸ hv)
      have hun := hto m hm v (hcview m hm ▸ hv)
      constructor <;> grind [Unseen]
  · have := h.held; grind
  · have := h.frames; grind
  · exact hleaves ▸ h.nodup
  · have := h.leaves; grind
  · have := h.places; grind

section Changes

variable {k : ℕ} {r : Res} (h : Inv gone s)

include h

/-- The frame rule for a name that is no view's. -/
lemma Inv.frame_res (hc : Changes k k s s') (hnone : s.views k = none) (hframe : k ∉ s.frames)
    (hres : ∀ r, s'.res k = some r → ResOk s'.next s'.views s'.buffers gone k r)
    (hheld : s'.buffers k ≠ none → ∃ r, s'.res k = some r ∧ r.interface = .buffer)
    (hviews : s'.views = s.views) (hto : ∀ m v, s.views m = some v → Unseen gone k v) :
    Inv gone s' := by
  refine h.frame hc hframe hres hheld (by simp [hviews, hnone]) (fun hk => ?_)
    (fun m hm v hv => ⟨hm, hto m v hv⟩) fun x hx o ho => ?_
  · have := h.leaves k hk
    grind
  · have := (h.res x o ho).role
    grind

/-- Nothing points to a name that was not given yet. -/
lemma Inv.unseen_next (n : ℕ) (hv : s.views n = some v) : n ≠ s.next ∧ Unseen gone s.next v := by
  obtain ⟨hres, hview, hbuf⟩ := h.next_free
  obtain ⟨h1, h2, h3, h4⟩ := h.view n v hv
  grind [Unseen]

lemma Inv.next_notFrame : s.next ∉ s.frames := by
  intro hm
  obtain ⟨o, ho, -⟩ := h.frames.2 _ hm
  simp [h.next_free.1] at ho

variable (hr : s.res r.handle = some r)

include hr

lemma Inv.notFrame (hi : r.interface ≠ .callback) : r.handle ∉ s.frames := by
  intro hm
  obtain ⟨o, ho, hoi, -⟩ := h.frames.2 _ hm
  obtain rfl := Option.mem_unique hr ho
  exact hi hoi

/-- Only surfaces have views named after them. -/
lemma Inv.views_none (hi : r.interface ≠ .surface) : s.views r.handle = none := by
  by_contra hv
  obtain ⟨v, hv⟩ := ne_none_iff_exists'.mp hv
  obtain ⟨o, ho, hoi, -⟩ := (h.view _ _ hv).own
  exact hi (Option.mem_unique hr ho ▸ hoi)

end Changes

/-! ## Objects that go -/

variable {r : Res}

section Gone

variable (h : Inv gone s) (hr : s.res r.handle = some r)

include h hr

omit hr in
/-- The views forget a buffer. -/
lemma Inv.forget (p : Ptr) :
    Inv gone { s with views := fun n => (s.views n).map (View.forget · p) } := by
  have hleaves := h.leaves
  refine { h with res := fun x o ho => ?_, view := fun n v hv => ?_, leaves := by grind [View.forget] }
  · obtain ⟨h1, h2, h3, h4⟩ := h.res x o ho
    constructor <;> grind [View.forget]
  · obtain ⟨w, hw, rfl⟩ := map_eq_some_iff.mp hv
    obtain ⟨h1, h2, h3, h4⟩ := h.view n w hw
    constructor <;> grind [View.forget]

/-- A buffer that the views have forgotten goes. -/
lemma Inv.dropBuffer (hi : r.interface = .buffer)
    (hforgot : ∀ n v, s.views n = some v →
      ¬ (v.pending = some (.buffer r.handle) ∨ v.current = some (.buffer r.handle))) :
    Inv gone { s with
      buffers := update s.buffers r.handle none
      res := update s.res r.handle none } := by
  refine h.frame_res (k := r.handle) ⟨le_rfl, fun x hx => update_of_ne hx .., fun x hx =>
    update_of_ne hx .., fun _ _ => rfl, rfl, rfl, rfl, rfl, rfl⟩ (h.views_none hr (by simp [hi]))
    (h.notFrame hr (by simp [hi])) (by simp) (by simp) rfl fun m v hv => ?_
  obtain ⟨h1, h2, h3, h4⟩ := h.view m v hv
  grind [Unseen]

/-- A view that is out of the tree goes with its surface, when nothing else points to it. -/
lemma Inv.dropView (hi : r.interface = .surface)
    (hn : r.handle ∉ s.leaves) (hsurf : some r.client ≠ gone → ∀ k o, s.res k = some o →
      o.interface = .xdgSurface ∨ o.interface = .toplevel → o.data ≠ r.data) :
    Inv gone { s with
      views := update s.views r.handle none
      res := update s.res r.handle none } := by
  obtain ⟨hd, v, hv⟩ := (h.res _ _ hr).surface hi
  obtain ⟨o, ho, -, hc⟩ := (h.view _ _ hv).own
  have hheld := h.held r.handle
  refine h.frame (k := r.handle) (n := r.handle) ⟨le_rfl, fun x hx => update_of_ne hx ..,
    fun _ _ => rfl, fun x hx => update_of_ne hx .., rfl, rfl, rfl, rfl, rfl⟩
    (h.notFrame hr (by simp [hi])) (by simp) (by grind) (by simp) (fun hm => absurd hm hn)
    (fun m hm w hw => ?_) fun x hx o' ho' => ?_
  · obtain ⟨h1, h2, h3, h4⟩ := h.view m w hw
    grind [Unseen]
  · have := (h.res x o' ho').role
    grind

variable (hframe : r.handle ∉ s.frames)
  (hxdg : some r.client ≠ gone → r.interface = .xdgSurface → ∀ k o, s.res k = some o →
    o.interface = .toplevel → o.data ≠ r.data)
  (htop : some r.client ≠ gone → r.interface = .toplevel → ∀ n v, s.views n = some v →
    v.toplevel ≠ some r.handle)

include hframe hxdg htop

/-- A resource the shell keeps nothing for is freed. -/
lemma Inv.dropRes (hb : r.interface ≠ .buffer) (hs : r.interface ≠ .surface) :
    Inv gone { s with res := update s.res r.handle none } := by
  have hheld := h.held r.handle
  refine h.frame_res (k := r.handle) ⟨le_rfl, fun x hx => update_of_ne hx .., fun _ _ => rfl,
    fun _ _ => rfl, rfl, rfl, rfl, rfl, rfl⟩ (h.views_none hr hs) hframe (by simp) (by grind) rfl
    fun m v hv => ?_
  obtain ⟨h1, h2, h3, h4⟩ := h.view m v hv
  -- an `xdg_surface` is pointed to only while there is a toplevel
  cases htl : v.toplevel with
  | none => grind [Unseen]
  | some t => grind [Unseen]

/-- `wl_resource_destroy` of a resource nothing the shell keeps depends on. -/
lemma Inv.destroy (hcalm : r.interface = .surface → r.handle ∈ s.leaves → ∀ m ∈ s.leaves,
      m ≠ r.handle → s.configures m = true)
    (hsurf : some r.client ≠ gone → r.interface = .surface → ∀ k o, s.res k = some o →
      o.interface = .xdgSurface ∨ o.interface = .toplevel → o.data ≠ r.data) :
    ∃ s', s.wlResourceDestroy r = some s' ∧ Inv gone s' ∧ s'.frames = s.frames ∧
      s'.res = update s.res r.handle none ∧ s'.leaves ⊆ s.leaves ∧
      ∀ n v, s'.views n = some v → ∃ w, s.views n = some w ∧ w.client = v.client := by
  unfold wlResourceDestroy destroyed
  cases hi : r.interface with
  | buffer =>
    obtain ⟨hd, hb⟩ := (h.res _ _ hr).buffer hi
    simp only [hd, if_neg hb, map_some]
    refine ⟨_, rfl, (h.forget _).dropBuffer hr hi fun n v hv => ?_, rfl, rfl, fun _ hm => hm,
      fun n v hv => ?_⟩
    · obtain ⟨w, -, rfl⟩ := map_eq_some_iff.mp hv
      grind [View.forget]
    obtain ⟨w, hw, rfl⟩ := map_eq_some_iff.mp hv
    exact ⟨w, hw, rfl⟩
  | surface =>
    obtain ⟨hd, v, hv⟩ := (h.res _ _ hr).surface hi
    obtain ⟨s1, hrem, hinv, hsame, hnot, hsub⟩ := h.removeView hv (hcalm hi)
    simp only [hd, hrem, map_some]
    refine ⟨_, rfl, hinv.dropView (hsame.res ▸ hr) hi hnot (hsame.res ▸ fun hg => hsurf hg hi),
      hsame.frames, by rw [hsame.res], hsub, fun n v hv => ?_⟩
    simp only [update_apply, hsame.views] at hv
    split_ifs at hv
    exact ⟨v, hv, rfl⟩
  | shmPool | callback | other | xdgSurface | toplevel =>
    refine ⟨_, rfl, h.dropRes hr hframe hxdg htop (by simp [hi]) (by simp [hi]), rfl, rfl,
      fun _ hm => hm, fun n v hv => ⟨v, hv, rfl⟩⟩

end Gone

/-! ## Objects that come -/

/-- The state with one more resource. -/
def withRes (s : Sway) (ids : ℕ → ℕ) (r : Res) : Sway :=
  { s with next := s.next + 1, serverId := ids, res := Function.update s.res s.next (some r) }

variable {ids : ℕ → ℕ} {c w : ℕ} {i : Iface}

section Handlers

variable (h : Inv none s)

include h

variable {t : ℕ} {b : ℕ → Option Bool} {u : View}

/-- A resource nothing is kept for, or one that a buffer is kept for. -/
lemma Inv.addRes (d : Option Ptr)
    (hi : (i = .other ∨ i = .shmPool ∨ i = .callback) ∧ b = s.buffers ∨
      i = .buffer ∧ d = some (.buffer s.next) ∧ b = update s.buffers s.next (some false)) :
    Inv none { s.withRes ids ⟨s.next, c, w, i, d⟩ with buffers := b } := by
  obtain ⟨-, hview, hbuf⟩ := h.next_free
  have hb : (∀ x ≠ s.next, b x = s.buffers x) ∧ (b s.next ≠ none ↔ i = .buffer) := by
    rcases hi with ⟨hi, rfl⟩ | ⟨rfl, -, rfl⟩
    · grind
    · exact ⟨fun x hx => update_of_ne hx .., by simp⟩
  refine h.frame_res (k := s.next) ⟨Nat.le_succ _, fun x hx => update_of_ne hx .., hb.1,
    fun _ _ => rfl, rfl, rfl, rfl, rfl, rfl⟩ hview h.next_notFrame (fun r hr => ?_)
    (fun hk => ⟨_, update_self .., hb.2.mp hk⟩) rfl fun m v hv => (h.unseen_next m hv).2
  obtain rfl : _ = r := by simpa [withRes] using hr
  exact ⟨⟨rfl, Nat.lt_succ_self _⟩, by grind, by grind, by grind⟩

/-- A surface with a fresh view. -/
lemma Inv.addSurface :
    Inv none ((s.withRes ids ⟨s.next, c, w, .surface, some (.view s.next)⟩).setView s.next
      ⟨c, none, none, none, false, none, false⟩) := by
  obtain ⟨-, hview, hbuf⟩ := h.next_free
  have hleaves := h.leaves s.next
  refine h.frame (k := s.next) (n := s.next) ⟨Nat.le_succ _, fun x hx => update_of_ne hx ..,
    fun _ _ => rfl, fun m hm => update_of_ne hm .., rfl, rfl, rfl, rfl, rfl⟩ h.next_notFrame
    (fun r hr => ?_) (fun hb => absurd hbuf hb) (fun v hv => ?_) (by grind)
    (fun m _ v hv => h.unseen_next m hv) fun x hx o ho => ?_
  · obtain rfl : _ = r := by simpa [withRes, Sway.setView] using hr
    exact ⟨⟨rfl, Nat.lt_succ_self _⟩, fun _ => ⟨rfl, _, update_self ..⟩, by simp, by simp⟩
  · obtain rfl : _ = v := by simpa [Sway.setView] using hv
    exact ⟨⟨_, update_self .., rfl, rfl⟩, by simp, by simp, by simp⟩
  · have := (h.res x o ho).role
    grind

/-- The first `xdg_surface` of a view, or a further toplevel of a view that has one. -/
lemma Inv.addRole (hv : s.views n = some v) (hc : v.client = c)
    (hu : (i = .xdgSurface ∧ u = { v with xdgSurface := some s.next } ∧ ∀ k o, s.res k = some o →
        o.interface = .xdgSurface → o.data ≠ some (.view n)) ∨
      (i = .toplevel ∧ u = { v with toplevel := some s.next } ∧ ∃ k o, s.res k = some o ∧
        o.interface = .xdgSurface ∧ o.data = some (.view n))) :
    Inv none ((s.withRes ids ⟨s.next, c, w, i, some (.view n)⟩).setView n u) := by
  obtain ⟨hres, -, hbuf⟩ := h.next_free
  have hleaves := h.leaves n
  refine h.frame (k := s.next) (n := n) ⟨Nat.le_succ _, fun x hx => update_of_ne hx ..,
    fun _ _ => rfl, fun m hm => update_of_ne hm .., rfl, rfl, rfl, rfl, rfl⟩ h.next_notFrame
    (fun r hr => ?_) (fun hb => absurd hbuf hb) (fun z hz => ?_)
    (fun hm => ⟨u, update_self .., by grind⟩) (fun m _ z hz => h.unseen_next m hz) fun x hx o ho => ?_
  · obtain rfl : _ = r := by simpa [withRes, Sway.setView] using hr
    exact ⟨⟨rfl, Nat.lt_succ_self _⟩, by grind, by grind, fun _ _ =>
      ⟨n, u, rfl, update_self .., by grind⟩⟩
  · obtain rfl : u = z := by simpa [Sway.setView] using hz
    obtain ⟨h1, h2, h3, h4⟩ := h.view n v hv
    change ViewOk (update s.res s.next (some ⟨s.next, c, w, i, some (.view n)⟩)) s.buffers none n u
    rcases hu with ⟨rfl, rfl, -⟩ | ⟨rfl, rfl, k, o, ho, hoi, hod⟩
    · constructor <;> grind
    · -- the `xdg_surface` the view points to is the one its data says
      have hrole := (h.res k o ho).role (by simp) (.inl hoi)
      constructor <;> grind
  · have := (h.res x o ho).role
    exact ⟨fun _ _ => ⟨u, update_self ..⟩, fun hg hi hd => ⟨u, update_self .., by grind⟩⟩

/-- A view whose fields change within what the invariant asks. -/
lemma Inv.setView (hv : s.views n = some v) (hclient : u.client = v.client)
    (hxdg : u.xdgSurface = v.xdgSurface ∨ (u.xdgSurface = none ∧ ∀ k o, s.res k = some o →
      o.interface = .xdgSurface → o.data ≠ some (.view n)))
    (htop : u.toplevel = v.toplevel ∨ u.toplevel = none)
    (hshown : ∀ p, u.pending = some p ∨ u.current = some p →
      ∃ m, p = .buffer m ∧ s.buffers m ≠ none) (hmapped : n ∈ s.leaves → u.mapped = true) :
    Inv none (s.setView n u) := by
  obtain ⟨hres, -, hbuf⟩ := h.next_free
  refine h.frame (k := s.next) (n := n) ⟨le_rfl, fun _ _ => rfl, fun _ _ => rfl,
    fun m hm => update_of_ne hm .., rfl, rfl, rfl, rfl, rfl⟩ h.next_notFrame
    (by simp [Sway.setView, hres]) (by simp [Sway.setView, hbuf]) (fun z hz => ?_)
    (fun hm => ⟨u, update_self .., hmapped hm⟩) (fun m _ z hz => h.unseen_next m hz) fun x hx o ho => ?_
  · obtain rfl : u = z := by simpa [Sway.setView] using hz
    obtain ⟨h1, h2, h3, h4⟩ := h.view n v hv
    change ViewOk s.res s.buffers none n u
    constructor <;> grind
  · have := (h.res x o ho).role
    exact ⟨fun _ _ => ⟨u, update_self ..⟩, fun hg hi hd => ⟨u, update_self .., by grind⟩⟩

/-- Buffers may be released and held again. -/
lemma Inv.withBuffers
    (hb : ∀ m, b m ≠ none ↔ s.buffers m ≠ none) : Inv none { s with buffers := b } := by
  refine { h with res := fun x r hr => ?_, view := fun n v hv => ?_, held := fun m hm => ?_ }
  · exact { h.res x r hr with buffer := fun hi => ⟨((h.res x r hr).buffer hi).1,
      (hb x).mpr ((h.res x r hr).buffer hi).2⟩ }
  · exact { h.view n v hv with shown := fun p hp =>
      ((h.view n v hv).shown p hp).imp fun m hm => ⟨hm.1, (hb m).mpr hm.2⟩ }
  · exact h.held m ((hb m).mp hm)

/-! ## The conditions -/

/-- What clients have to keep to: the order of destruction, one `xdg_surface` for a surface, a
fullscreen window that is shown, and a buffer where a buffer is asked for. A client that goes has no
frame callback left and at most one window. -/
def careful (s : Sway) : Event → Bool
  | .request c (.attach t buffer) => s.named (.request c (.attach t buffer))
  | .request c (.destroySurface t) => (s.target c t .surface).all fun r => (s.objects c).all fun o =>
    decide (o.interface = .xdgSurface ∨ o.interface = .toplevel → o.data ≠ r.data)
  | .request c (.destroyXdgSurface t) => (s.target c t .xdgSurface).all fun r =>
    (s.objects c).all fun o => decide (o.interface = .toplevel → o.data ≠ r.data)
  | .request c (.getXdgSurface _ t) => (s.objectArg c t).all fun r => (s.objects c).all fun o =>
    decide (o.interface = .xdgSurface → o.data ≠ r.data)
  | .request c (.setFullscreen t) => (s.target c t .toplevel).all fun r =>
    (viewOf r).all fun n => decide (n ∈ s.leaves)
  | .disconnect c => (s.frames.all fun h => (s.res h).all fun r => decide (r.client ≠ c)) &&
    decide ((s.leaves.filter fun n => (s.views n).any fun v => decide (v.client = c)).length ≤ 1)
  | _ => true

def Careful (s : Sway) (e : Event) : Prop := s.careful e = true

instance instDecidableCareful (s : Sway) (e : Event) : Decidable (s.Careful e) :=
  inferInstanceAs (Decidable (s.careful e = true))

/-! ## Every handler -/

lemma Inv.live (hr : r ∈ s.objects c) : s.res r.handle = some r ∧ r.client = c := by
  obtain ⟨hc, k, -, hk⟩ := mem_objects hr
  obtain ⟨rfl, -⟩ := (h.res k r hk).handle
  exact ⟨hk, hc⟩

lemma Inv.mem_objects {k : ℕ} (hr : s.res k = some r) : r ∈ s.objects r.client := by
  refine mem_filter.mpr ⟨mem_filterMap.mpr ⟨k, ?_, hr⟩, by simp⟩
  simpa using (h.res k r hr).handle.2

lemma Inv.calm : ∀ m ∈ s.leaves, s.configures m = true := by
  intro m hm
  obtain ⟨v, hv, -⟩ := h.leaves m hm
  exact h.configures hv (by simp)

lemma Inv.mapped (hv : s.views n = some v) (hn : n ∈ s.leaves) : v.mapped = true := by
  obtain ⟨u, hu, hmap⟩ := h.leaves n hn
  rwa [Option.mem_unique hv hu]

lemma Inv.arrange : s.layoutArrange = some s := by
  have hfull : s.fullscreen.all s.configures = true :=
    (Option.all_eq_true ..).mpr fun n hf => h.calm n (h.places n (.inr (.inl hf)))
  have hall : s.leaves.all s.configures = true := all_eq_true.mpr h.calm
  rw [layoutArrange, hfull, hall]
  rfl

/-- The view of a resource that has one. -/
lemma Inv.viewOf (hr : s.res r.handle = some r)
    (hi : r.interface = .surface ∨ r.interface = .xdgSurface ∨ r.interface = .toplevel) :
    ∃ n v, Sway.viewOf r = some n ∧ r.data = some (.view n) ∧ s.views n = some v ∧
      v.client = r.client := by
  rcases hi with hi | hi
  · obtain ⟨hd, v, hv⟩ := (h.res _ _ hr).surface hi
    obtain ⟨o, ho, -, hc⟩ := (h.view _ _ hv).own
    obtain rfl := Option.mem_unique hr ho
    exact ⟨_, v, by rw [Sway.viewOf, hd], hd, hv, hc.symm⟩
  · obtain ⟨n, v, hd, hv, hc, -⟩ := (h.res _ _ hr).role (by simp) hi
    exact ⟨n, v, by rw [Sway.viewOf, hd], hd, hv, hc⟩

/-- A handler for an object of the client. -/
lemma Inv.on {f : Res → Option Sway}
    (hf : ∀ r, s.target c t i = some r → s.res r.handle = some r → r.client = c →
      r.interface = i → ∃ s', f r = some s' ∧ Inv none s') :
    ∃ s', s.on c t i f = some s' ∧ Inv none s' := by
  unfold Sway.on
  cases ht : s.target c t i with
  | none => exact ⟨s, rfl, h⟩
  | some r =>
    obtain ⟨hi, hmem⟩ := target_spec ht
    exact hf r ht (h.live hmem).1 (h.live hmem).2 hi

/-- A handler that starts with the view of its object. -/
lemma Inv.onView {f : Res → ℕ → View → Option Sway}
    (hi : i = .surface ∨ i = .xdgSurface ∨ i = .toplevel)
    (hf : ∀ r n v, s.res r.handle = some r → r.client = c → r.interface = i →
      r.data = some (.view n) → s.views n = some v → v.client = c →
      ∃ s', f r n v = some s' ∧ Inv none s') :
    ∃ s', s.onView c t i f = some s' ∧ Inv none s' := by
  refine h.on fun r _ hr hc hri => ?_
  obtain ⟨n, v, hn, hd, hv, hvc⟩ := h.viewOf hr (hri ▸ hi)
  obtain ⟨s', hs', hinv⟩ := hf r n v hr hc hri hd hv (hvc.trans hc)
  exact ⟨s', by simp [hn, hv, hs'], hinv⟩

/-- The two outcomes of `wl_resource_create`. -/
lemma Inv.create (c : ℕ) (i : Iface) (id : ℕ) (d : Option Ptr) :
    (∃ s', s.wlResourceCreate c i id d = (s', false) ∧ Inv none s' ∧ SameObjects s s' ∧
      s'.leaves = s.leaves) ∨
      ∃ ids w, s.wlResourceCreate c i id d = (s.withRes ids ⟨s.next, c, w, i, d⟩, true) := by
  obtain ⟨ids, w, hc | hc⟩ := wlResourceCreate_cases s c i id d
  · refine .inl ⟨_, hc, ?_, ⟨rfl, rfl, rfl, rfl, rfl⟩, rfl⟩
    exact { h with }
  · exact .inr ⟨ids, w, hc⟩

/-- `surface_commit` reads buffers that are there. -/
lemma Inv.commit (hv : s.views n = some v) : ∃ s', s.surfaceCommit n = some s' ∧ Inv none s' := by
  -- a pointer the view keeps is a buffer that is alive, and so is its resource
  have hptr : ∀ p, v.pending = some p ∨ v.current = some p →
      ∃ m, s.buffer? p = some m ∧ (s.res m).isSome := by
    intro p hp
    obtain ⟨m, rfl, hm⟩ := (h.view n v hv).shown p hp
    obtain ⟨r, hr, -⟩ := h.held m hm
    exact ⟨m, by simp [buffer?, isSome_iff_ne_none, hm], by simp [hr]⟩
  have halive : ∀ p m, s.buffer? p = some m → s.buffers m ≠ none := by
    intro p m hp
    cases p <;> simp only [buffer?] at hp <;> grind
  obtain ⟨s1, htake, hinv, hview, hleaves⟩ : ∃ s1, s.takePending n v = some s1 ∧ Inv none s1 ∧
      (∃ u, s1.views n = some u ∧ u.client = v.client ∧ u.mapped = v.mapped) ∧
      s1.leaves = s.leaves := by
    unfold takePending
    by_cases hset : v.pendingSet
    swap
    · exact ⟨s, by simp [hset], h, ⟨v, hv, rfl, rfl⟩, rfl⟩
    rw [if_pos hset]
    obtain ⟨b, hrel, hb⟩ : ∃ b, s.releaseCurrent v = some { s with buffers := b } ∧
        ∀ m, b m ≠ none ↔ s.buffers m ≠ none := by
      unfold releaseCurrent
      cases hcur : v.current with
      | none => exact ⟨s.buffers, rfl, fun _ => Iff.rfl⟩
      | some p =>
        split_ifs
        · exact ⟨s.buffers, rfl, fun _ => Iff.rfl⟩
        obtain ⟨m, hm, hres⟩ := hptr p (.inr hcur)
        simp only [shellReleaseBuffer, hm, hres, if_true]
        split_ifs
        · exact ⟨s.buffers, rfl, fun _ => Iff.rfl⟩
        · refine ⟨_, rfl, fun k => ?_⟩
          simp only [update_apply]
          split_ifs <;> grind
    obtain ⟨b', hhold, hb'⟩ : ∃ b', holdPending { s with buffers := b } v
        = some { s with buffers := b' } ∧ ∀ m, b' m ≠ none ↔ s.buffers m ≠ none := by
      unfold holdPending
      cases hpend : v.pending with
      | none => exact ⟨b, rfl, hb⟩
      | some p =>
        obtain ⟨m, rfl, hm⟩ := (h.view n v hv).shown p (.inl hpend)
        have hbm : (b m).isSome := isSome_iff_ne_none.mpr ((hb m).mpr hm)
        refine ⟨update b m (some false), by simp [buffer?, hbm], fun k => ?_⟩
        simp only [update_apply]
        split_ifs with hk
        · simp [hk, hm]
        · exact hb k
    rw [hrel, bind_some, hhold]
    refine ⟨_, rfl, (h.withBuffers hb').setView (v := v) hv rfl (.inl rfl) (.inl rfl) ?_ ?_,
      ⟨_, update_self _ _ _, rfl, rfl⟩, rfl⟩
    · intro p hp
      obtain ⟨m, rfl, hm⟩ := (h.view n v hv).shown p (.inl (by simpa using hp))
      exact ⟨m, rfl, (hb' m).mpr hm⟩
    · exact h.mapped (v := v) hv
  obtain ⟨u, hu, -, humap⟩ := hview
  unfold surfaceCommit
  simp only [hv, htake, hu, bind_eq_bind, bind_some]
  split_ifs with hmap
  · have hnot : n ∉ s1.leaves := by
      intro hm
      obtain ⟨z, hz, hzm⟩ := hinv.leaves n hm
      obtain rfl := Option.mem_unique hu hz
      simp [hzm] at hmap
    have hset : Inv none (s1.setView n { u with mapped := true }) :=
      hinv.setView hu rfl (.inl rfl) (.inl rfl) (fun p hp => (hinv.view n u hu).shown p hp)
        fun _ => rfl
    exact hset.addView (update_self _ _ _) rfl hnot
  · exact ⟨s1, rfl, hinv⟩

/-- Destroying an object at the client's request, when the conditions on its kind are met. -/
lemma Inv.onDestroy (hi : i ≠ .callback) (hi' : i ≠ .toplevel)
    (hsurf : ∀ r, s.target c t i = some r → i = .surface → ∀ o ∈ s.objects c,
      o.interface = .xdgSurface ∨ o.interface = .toplevel → o.data ≠ r.data)
    (hxdg : ∀ r, s.target c t i = some r → i = .xdgSurface → ∀ o ∈ s.objects c,
      o.interface = .toplevel → o.data ≠ r.data) :
    ∃ s', s.on c t i s.wlResourceDestroy = some s' ∧ Inv none s' := by
  refine h.on fun r ht hr hc hri => ?_
  -- an object that points to the same view is one of the same client
  have hown : ∀ k o, s.res k = some o → o.interface = .xdgSurface ∨ o.interface = .toplevel →
      (r.interface = .surface ∨ r.interface = .xdgSurface) → o.data = r.data → o ∈ s.objects c := by
    intro k o ho hoi hrs hd
    obtain ⟨n, v, hod, hv, hvc, -⟩ := (h.res k o ho).role (by simp) hoi
    obtain ⟨n', v', -, hrd, hv', hvc'⟩ := h.viewOf hr (hrs.imp id .inl)
    obtain rfl : n = n' := by simpa using hod.symm.trans (hd.trans hrd)
    obtain rfl := Option.mem_unique hv hv'
    rw [← hc, ← hvc', hvc]
    exact h.mem_objects ho
  obtain ⟨s', hs', hinv, -⟩ := h.destroy hr (h.notFrame hr (hri ▸ hi))
    (fun _ hx k o ho hoi hd =>
      hxdg r ht (hri ▸ hx) o (hown k o ho (.inr hoi) (.inr hx) hd) hoi hd)
    (fun _ htl => absurd (hri ▸ htl) hi') (fun _ _ m hm _ => h.calm m hm)
    (fun _ hs k o ho hoi hd => hsurf r ht (hri ▸ hs) o (hown k o ho hoi (.inl hs) hd) hoi hd)
  exact ⟨s', hs', hinv⟩

/-- A frame callback is asked for: it is made and remembered, if there is room. -/
lemma Inv.frame_request {t id : ℕ} : ∃ s', s.handle c (.frame t id) = some s' ∧ Inv none s' := by
  refine h.on fun r _ _ _ _ => ?_
  rcases h.create c .callback id none with ⟨s', hs', hinv, -⟩ | ⟨ids, w, hs'⟩
  · exact ⟨s', by simp [hs'], hinv⟩
  have hadd : Inv none (s.withRes ids ⟨s.next, c, w, .callback, none⟩) := h.addRes _ (by simp)
  rw [hs']
  have hfree := h.next_free.1
  split_ifs
  · refine ⟨_, rfl, { hadd with frames := ?_ }⟩
    have hfr := h.frames
    exact ⟨nodup_append.mpr ⟨hfr.1, by simp, by grind⟩, forall_mem_append.mpr
      ⟨hadd.frames.2, forall_mem_singleton.mpr ⟨_, update_self _ _ _, rfl, by simp⟩⟩⟩
  · refine ⟨_, rfl, { h with res := fun k r hr => { h.res k r hr with handle := ?_ } }⟩
    exact ⟨(h.res k r hr).handle.1, Nat.lt_succ_of_lt (h.res k r hr).handle.2⟩

/-- A surface gets its first `xdg_surface`. -/
lemma Inv.getXdgSurface {id surface : ℕ} (hq : s.Careful (.request c (.getXdgSurface id surface))) :
    ∃ s', s.handle c (.getXdgSurface id surface) = some s' ∧ Inv none s' := by
  simp only [Sway.handle]
  cases ho : (s.objectArg c surface).filter fun r => decide (r.interface = .surface) with
  | none => exact ⟨s, rfl, h⟩
  | some r =>
  obtain ⟨hobj, hri⟩ := filter_eq_some_iff.mp ho
  obtain ⟨hr, hc⟩ := h.live (objectArg_mem hobj)
  obtain ⟨n, v, hn, hd, hv, hvc⟩ := h.viewOf hr (.inl (by simpa using hri))
  simp only [hn, hv, bind_eq_bind, bind_some]
  have hfirst : ∀ k o, s.res k = some o → o.interface = .xdgSurface → o.data ≠ some (.view n) := by
    intro k o hk hoi hod
    obtain ⟨n', v', hod', hv', hoc, -⟩ := (h.res k o hk).role (by simp) (Or.inl hoi)
    obtain rfl : n = n' := by simpa using hod.symm.trans hod'
    obtain rfl := Option.mem_unique hv hv'
    have hmem : o ∈ s.objects c := by
      rw [← hc, ← hvc, hoc]
      exact h.mem_objects hk
    have := hq
    simp only [Careful, careful, hobj, Option.all_some, all_eq_true, decide_eq_true_eq] at this
    exact this o hmem hoi (hod.trans hd.symm)
  rcases h.create c .xdgSurface id (some (.view n)) with ⟨s', hs', hinv, hsame, hl⟩ | ⟨ids, w, hs'⟩
  · rw [hs']
    have hv' : s'.views n = some v := hsame.views ▸ hv
    refine ⟨_, rfl, hinv.setView (u := { v with xdgSurface := none }) hv' rfl
      (.inr ⟨rfl, hsame.res ▸ hfirst⟩) (.inl rfl) (fun p hp => (hinv.view n v hv').shown p hp)
      (hinv.mapped (v := v) hv')⟩
  · rw [hs']
    exact ⟨_, rfl, h.addRole hv (hvc.trans hc) (.inl ⟨rfl, rfl, hfirst⟩)⟩

/-- An `xdg_surface` gets a toplevel. -/
lemma Inv.getToplevel {t id : ℕ} : ∃ s', s.handle c (.getToplevel t id) = some s' ∧ Inv none s' := by
  refine h.onView (by simp) fun r n v hr hc hri hd hv hvc => ?_
  rcases h.create c .toplevel id (some (.view n)) with ⟨s', hs', hinv, hsame, hl⟩ | ⟨ids, w, hs'⟩
  · rw [hs']
    have hv' : s'.views n = some v := hsame.views ▸ hv
    exact ⟨_, rfl, hinv.setView (u := { v with toplevel := none }) hv' rfl (.inl rfl)
      (.inr rfl) (fun p hp => (hinv.view n v hv').shown p hp) (hinv.mapped (v := v) hv')⟩
  · have hadd : Inv none ((s.withRes ids ⟨s.next, c, w, .toplevel, some (.view n)⟩).setView n
        { v with toplevel := some s.next }) :=
      h.addRole hv hvc (.inr ⟨rfl, rfl, r.handle, r, hr, hri, hd⟩)
    have hconf := hadd.configures (update_self _ _ _) (by simp)
    rw [hs']
    exact ⟨_, if_pos hconf, hadd⟩

/-- A toplevel goes, and its window leaves the layout. -/
lemma Inv.destroyToplevel {t : ℕ} : ∃ s', s.handle c (.destroyToplevel t) = some s' ∧ Inv none s' := by
  refine h.onView (by simp) fun r n v hr hc hri hd hv _ => ?_
  obtain ⟨s1, hrem, hinv, hsame, hnot, -⟩ := h.removeView hv fun _ m hm _ => h.calm m hm
  have hv1 : s1.views n = some v := hsame.views ▸ hv
  have hset : Inv none (s1.setView n { v with toplevel := none, mapped := false }) :=
    hinv.setView hv1 rfl (.inl rfl) (.inr rfl) (fun p hp => (hinv.view n v hv1).shown p hp)
      fun hm => absurd hm hnot
  have hr1 : (s1.setView n { v with toplevel := none, mapped := false }).res r.handle = some r :=
    (congrFun hsame.res _).trans hr
  obtain ⟨s', hs', hinv', -⟩ := hset.destroy hr1 (hset.notFrame hr1 (by simp [hri])) (by simp [hri])
    (by
      -- the view that could point to this toplevel is the one it was made for
      intro _ _ m u hu htop
      obtain ⟨o, ho, -, hod, -⟩ := (hset.view m u hu).toplevel r.handle (by simp) htop
      obtain rfl := Option.mem_unique hr1 ho
      obtain rfl : n = m := by simpa using hd.symm.trans hod
      simp only [Sway.setView, update_self] at hu
      rw [← Option.some.inj hu] at htop
      cases htop) (by simp [hri]) (by simp [hri])
  exact ⟨s', by simp [hrem, hv1, hs'], hinv'⟩

/-- Every request of a careful client. -/
lemma Inv.handle_request {q : Request} (hq : s.Careful (.request c q)) :
    ∃ s', s.handle c q = some s' ∧ Inv none s' := by
  cases q with
  | createPool id =>
    simp only [Sway.handle]
    rcases h.create c .shmPool id (some (.pool s.next)) with ⟨s', hs', hinv, -⟩ | ⟨ids, w, hs'⟩
    · exact ⟨s', by rw [hs'], hinv⟩
    · rw [hs']
      exact ⟨_, rfl, h.addRes _ (by simp)⟩
  | createOther id =>
    simp only [Sway.handle]
    rcases h.create c .other id none with ⟨s', hs', hinv, -⟩ | ⟨ids, w, hs'⟩
    · exact ⟨s', by rw [hs'], hinv⟩
    · rw [hs']
      exact ⟨_, rfl, h.addRes _ (by simp)⟩
  | createBuffer pool id =>
    refine h.on fun r _ _ _ _ => ?_
    rcases h.create c .buffer id (some (.buffer s.next)) with ⟨s', hs', hinv, -⟩ | ⟨ids, w, hs'⟩
    · exact ⟨s', by rw [hs'], hinv⟩
    · rw [hs']
      exact ⟨_, rfl, h.addRes _ (.inr ⟨rfl, rfl, rfl⟩)⟩
  | createSurface id =>
    simp only [Sway.handle]
    rcases h.create c .surface id (some (.view s.next)) with ⟨s', hs', hinv, -⟩ | ⟨ids, w, hs'⟩
    · exact ⟨s', by rw [hs'], hinv⟩
    · rw [hs']
      exact ⟨_, rfl, h.addSurface⟩
  | destroyPool t | destroyOther t | destroyBuffer t =>
    exact h.onDestroy (by simp) (by simp) (by simp) (by simp)
  | destroySurface t =>
    refine h.onDestroy (by simp) (by simp) (fun r ht _ o ho => ?_) (by simp)
    have := hq
    simp only [Careful, careful, ht, Option.all_some, all_eq_true, decide_eq_true_eq] at this
    exact this o ho
  | destroyXdgSurface t =>
    refine h.onDestroy (by simp) (by simp) (by simp) fun r ht _ o ho => ?_
    have := hq
    simp only [Careful, careful, ht, Option.all_some, all_eq_true, decide_eq_true_eq] at this
    exact this o ho
  | attach t buffer =>
    refine h.onView (.inl rfl) fun r n v _ _ _ _ hv _ => ?_
    refine ⟨_, rfl, h.setView hv rfl (.inl rfl) (.inl rfl) ?_ ?_⟩
    · rintro p (hp | hp)
      · obtain ⟨o, ho, hdata⟩ := bind_eq_some_iff.mp hp
        have hbuf : o.interface = .buffer := by simpa [Careful, careful, named, ho] using hq
        obtain ⟨hd, hb⟩ := (h.res _ _ (h.live (objectArg_mem ho)).1).buffer hbuf
        exact ⟨o.handle, Option.mem_unique hdata hd, hb⟩
      · exact (h.view n v hv).shown p (.inr hp)
    · exact h.mapped (v := v) hv
  | frame t id => exact h.frame_request
  | commit t => exact h.onView (.inl rfl) fun r n v _ _ _ _ hv _ => h.commit hv
  | getXdgSurface id surface => exact h.getXdgSurface hq
  | ackConfigure t | setTitle t => exact h.onView (by simp) fun r n v _ _ _ _ _ _ => ⟨s, rfl, h⟩
  | getToplevel t id => exact h.getToplevel
  | destroyToplevel t => exact h.destroyToplevel
  | setFullscreen t =>
    refine h.on fun r ht hr _ hri => ?_
    obtain ⟨n, v, hn, -, -, -⟩ := h.viewOf hr (by simp [hri])
    have hin : n ∈ s.leaves := by simpa [Careful, careful, ht, hn] using hq
    have hinv : Inv none { s with fullscreen := Sway.viewOf r } := by
      refine { h with places := fun m hm => ?_ }
      have := h.places m
      grind
    exact ⟨_, hinv.arrange, hinv⟩
  | unsetFullscreen t =>
    refine h.on fun r _ _ _ _ => ?_
    have hinv : Inv none { s with
        fullscreen := if s.fullscreen = Sway.viewOf r then none else s.fullscreen } := by
      refine { h with places := fun m hm => ?_ }
      have := h.places m
      grind
    exact ⟨_, hinv.arrange, hinv⟩

end Handlers

/-! ## A client that goes -/

/-- The invariant for another client that goes: the resources it lets out are let out already. -/
lemma Inv.regone {gone' : Option ℕ} (h : Inv gone s)
    (hg : ∀ k r, s.res k = some r → some r.client ≠ gone' → some r.client ≠ gone)
    (hframes : ∀ k ∈ s.frames, ∃ r, s.res k = some r ∧ r.interface = .callback ∧
      some r.client ≠ gone') : Inv gone' s := by
  refine { h with res := fun k r hr => ?_, view := fun n v hv => ?_, frames := ⟨h.frames.1, hframes⟩ }
  · exact { h.res k r hr with role := fun hc => (h.res k r hr).role (hg k r hr hc) }
  · obtain ⟨r, hr, -, hrc⟩ := (h.view n v hv).own
    have hc : some v.client ≠ gone' → some v.client ≠ gone := hrc ▸ hg n r hr
    exact { h.view n v hv with
      toplevel := fun t ht => (h.view n v hv).toplevel t (hc ht)
      xdg := fun x hx => (h.view n v hv).xdg x (hc hx) }

/-- The objects of the client one after another. What is left of its list is what is left of its
objects, and no two of its windows are in the tree. -/
lemma Inv.destroyAll (l : List Res) {s : Sway} (h : Inv (some c) s)
    (hall : ∀ k r, s.res k = some r → r.client = c → r ∈ l)
    (hl : ∀ r ∈ l, s.res r.handle = some r ∧ r.client = c)
    (hd : l.Pairwise fun r o => r.handle ≠ o.handle)
    (hone : ∀ n ∈ s.leaves, ∀ m ∈ s.leaves, ∀ v u, s.views n = some v → s.views m = some u →
      v.client = c → u.client = c → n = m) :
    ∃ s', l.foldlM wlResourceDestroy s = some s' ∧ Inv none s' := by
  induction l generalizing s with
  | nil =>
    -- nothing of the client is left, so that nothing is excepted any more
    have hnone : ∀ k r, s.res k = some r → r.client ≠ c := fun k r hr hc => by simpa using hall k r hr hc
    refine ⟨s, rfl, h.regone (fun k r hr _ => by simpa using hnone k r hr) fun k hk => ?_⟩
    exact (h.frames.2 k hk).imp fun r hr => ⟨hr.1, hr.2.1, by simp⟩
  | cons r l ih =>
    obtain ⟨hr, hc⟩ := hl r mem_cons_self
    have hgone : ¬ some r.client ≠ some c := by simp [hc]
    have hframe : r.handle ∉ s.frames := by
      intro hm
      obtain ⟨o, ho, -, hne⟩ := h.frames.2 _ hm
      exact hgone (Option.mem_unique hr ho ▸ hne)
    have hcalm : r.interface = .surface → r.handle ∈ s.leaves → ∀ m ∈ s.leaves, m ≠ r.handle →
        s.configures m = true := by
      intro hi hin m hm hne
      obtain ⟨v, hv, -⟩ := h.leaves m hm
      obtain ⟨-, u, hu⟩ := (h.res _ _ hr).surface hi
      obtain ⟨o, ho, -, hoc⟩ := (h.view _ _ hu).own
      obtain rfl := Option.mem_unique hr ho
      refine h.configures hv fun hvc => hne ?_
      exact hone m hm r.handle hin v u hv hu (Option.some.inj hvc) (hoc.symm.trans hc)
    obtain ⟨s1, hs1, hinv, hfr, hres, hsub, hviews⟩ := h.destroy hr hframe
      (fun hg => absurd hg hgone) (fun hg => absurd hg hgone) hcalm (fun hg => absurd hg hgone)
    rw [foldlM_cons, hs1]
    refine ih hinv ?_ ?_ (pairwise_cons.mp hd).2 ?_
    · intro k o ho hoc
      rw [hres, update_apply] at ho
      split_ifs at ho with hk
      rcases mem_cons.mp (hall k o ho hoc) with rfl | hmem
      · exact absurd (h.res k o ho).handle.1.symm hk
      · exact hmem
    · intro o ho
      have hne := (pairwise_cons.mp hd).1 o ho
      refine ⟨?_, (hl o (mem_cons_of_mem _ ho)).2⟩
      rw [hres, update_of_ne hne.symm]
      exact (hl o (mem_cons_of_mem _ ho)).1
    · intro n hn m hm v u hv hu hvc huc
      obtain ⟨v', hv', hvc'⟩ := hviews n v hv
      obtain ⟨u', hu', huc'⟩ := hviews m u hu
      exact hone n (hsub hn) m (hsub hm) v' u' hv' hu' (hvc'.trans hvc) (huc'.trans huc)

/-- A client that leaves carefully takes its objects along. -/
lemma Inv.disconnect (h : Inv none s) (hq : s.Careful (.disconnect c)) :
    ∃ s', s.wlClientDestroy c = some s' ∧ Inv none s' := by
  have hq' := hq
  simp only [Careful, careful, Bool.and_eq_true, all_eq_true, decide_eq_true_eq] at hq'
  obtain ⟨hframes, hfew⟩ := hq'
  refine Inv.destroyAll (c := c) (s.objects c) (h.regone (by simp) fun k hk => ?_)
    (fun k r hr hc => by rw [← hc]; exact h.mem_objects hr) (fun r hr => h.live hr) ?_ ?_
  · obtain ⟨r, hr, hi, -⟩ := h.frames.2 k hk
    exact ⟨r, hr, hi, by simpa [hr] using hframes k hk⟩
  · -- the handles of the list are those below the counter, each once
    refine List.Pairwise.filter _ (pairwise_filterMap.mpr ?_)
    refine List.Pairwise.imp ?_ (pairwise_reverse.mpr (nodup_range.imp Ne.symm))
    intro k j hkj r hr o ho
    rw [(h.res k r hr).handle.1, (h.res j o ho).handle.1]
    exact hkj
  · intro n hn m hm v u hv hu hvc huc
    have hin : ∀ k z, k ∈ s.leaves → s.views k = some z → z.client = c →
        k ∈ s.leaves.filter fun n => (s.views n).any fun v => decide (v.client = c) := by
      intro k z hk hz hzc
      simp [hk, hz, hzc]
    have hnin := hin n v hn hv hvc
    have hmin := hin m u hm hu huc
    obtain ⟨a, ha⟩ := length_eq_one_iff.mp (le_antisymm hfew (length_pos_of_mem hnin))
    rw [ha, mem_singleton] at hnin hmin
    rw [hnin, hmin]

/-- All frame callbacks are answered and freed. -/
lemma Inv.framesDone (l : List ℕ) {s : Sway} (h : Inv none { s with frames := [] }) (hd : l.Nodup)
    (hl : ∀ k ∈ l, ∃ r, s.res k = some r ∧ r.interface = .callback) :
    ∃ s', l.foldlM frameCallbackDone s = some s' ∧ Inv none { s' with frames := [] } := by
  induction l generalizing s with
  | nil => exact ⟨s, rfl, h⟩
  | cons k l ih =>
    obtain ⟨r, hr, hi⟩ := hl k mem_cons_self
    obtain ⟨rfl, -⟩ := (h.res k r hr).handle
    have hdone : s.frameCallbackDone r.handle
        = some { s with res := update s.res r.handle none } := by
      simp [frameCallbackDone, hr]
    rw [foldlM_cons, hdone]
    refine ih (h.dropRes hr (by simp) (by simp [hi]) (by simp [hi]) (by simp [hi]) (by simp [hi]))
      (nodup_cons.mp hd).2 fun j hj => ?_
    have hne : j ≠ r.handle := fun he => (nodup_cons.mp hd).1 (he ▸ hj)
    simpa [update_of_ne hne] using hl j (mem_cons_of_mem _ hj)

/-- Drawing reads live buffers only. -/
lemma Inv.render (h : Inv none s) : s.render = some s := by
  have hdraws : ∀ n ∈ s.leaves, s.draws n = true := by
    intro n hn
    obtain ⟨v, hv, -⟩ := h.leaves n hn
    cases hcur : v.current with
    | none => simp [draws, hv, hcur]
    | some p =>
      obtain ⟨m, rfl, hm⟩ := (h.view n v hv).shown p (.inr hcur)
      simp [draws, hv, hcur, buffer?, isSome_iff_ne_none, hm]
  have hfull : s.fullscreen.all s.draws = true :=
    (Option.all_eq_true ..).mpr fun n hf => hdraws n (h.places n (.inr (.inl hf)))
  have hfoc : (s.focused.all fun n => (s.views n).isSome) = true := by
    refine (Option.all_eq_true ..).mpr fun n hf => ?_
    obtain ⟨v, hv, -⟩ := h.leaves n (h.places n (.inr (.inr hf)))
    simp [hv]
  rw [Sway.render, hfull, hfoc, all_eq_true.mpr hdraws]
  rfl

/-- One careful event. -/
lemma Inv.exec (h : Inv none s) {e : Event} (he : s.Careful e) :
    ∃ s', s.exec e = some s' ∧ Inv none s' := by
  cases e with
  | request c q => exact h.handle_request he
  | disconnect c => exact h.disconnect he
  | render => exact ⟨s, h.render, h⟩
  | frameDone =>
    obtain ⟨s', hs', hinv⟩ := Inv.framesDone s.frames (s := s) { h with frames := by simp }
      h.frames.1 fun k hk => (h.frames.2 k hk).imp fun r hr => ⟨hr.1, hr.2.1⟩
    exact ⟨_, by simp [Sway.exec, shellFrameDone, hs'], hinv⟩

lemma inv_start : Inv none start := by
  constructor <;> simp [start]

end Sway

/-- Along every run of careful events of the clients, no handler reads through a pointer to an object
that is gone: the next careful event always has a result. -/
theorem no_dead_object_used (events : List Event) (s : Sway) (e : Event)
    (hrun : Run (someStep Sway.Careful Sway.exec) Sway.start events s) (he : s.Careful e) :
    (s.exec e).isSome = true := by
  have hinv : s.Inv none := by
    refine hrun.invariant (fun s e s' h hstep => ?_) Sway.inv_start
    obtain ⟨s1, hs1, hinv⟩ := h.exec hstep.1
    obtain rfl := Option.some.inj (hs1.symm.trans hstep.2)
    exact hinv
  obtain ⟨s', hs', -⟩ := hinv.exec he
  rw [hs']
  rfl

/-- A window is shown, and its client goes. -/
theorem window_disconnect : ∃ s, follow Sway.Careful Sway.exec Sway.start windowEvents = some s ∧
    s.Careful (.disconnect 0) ∧ (s.exec (.disconnect 0)).isSome = true := by
  have hsome : ((follow Sway.Careful Sway.exec Sway.start windowEvents).map fun s =>
      s.careful (.disconnect 0)) = some true := by decide
  obtain ⟨s, hs, hc⟩ := map_eq_some_iff.mp hsome
  exact ⟨s, hs, hc, no_dead_object_used windowEvents s (.disconnect 0) (follow_run hs) hc⟩

/-- A surface is destroyed before its `xdg_surface`, which is then asked for a toplevel: the view it
points to is gone. -/
theorem xdg_surface_outlives_view :
    (List.foldlM Sway.exec Sway.start [.request 0 (.createSurface 2), .request 0 (.getXdgSurface 3 2),
      .request 0 (.destroySurface 2)]).isSome = true ∧
    List.foldlM Sway.exec Sway.start [.request 0 (.createSurface 2), .request 0 (.getXdgSurface 3 2),
      .request 0 (.destroySurface 2), .request 0 (.getToplevel 3 4)] = none := by
  decide

end Wos.Wayland
