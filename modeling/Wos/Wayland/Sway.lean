import Mathlib.Data.List.Nodup
import Wos.Wayland.Server

/-!
# The compositor: what clients make it keep

The shell of sway keeps pointers between objects whose lifetimes the clients decide: a view to its
buffers and to the resources of its window, those resources to their view, the layout to views, and
a table of frame callbacks. A handler that reads through a pointer to an object that is gone has no
result here (`none`), so that a run is a run without such a read.

Addresses are names that are never used twice: a resource is named by the value of a counter, and a
buffer or a view by the resource it was made with. Requests and disconnects are the events. Events of
the keyboard, of the mouse and of the IPC socket are left out, with the workspace switch,
`set_fullscreen` on another workspace and `pointer_focus`: there is one workspace, and its tree is a
list of windows.

## Main definitions

* `Sway`, `View`, `Ptr`: the state, a window, and what `user_data` may point to;
* `Request`, `Event`, `handle`: what clients can do, and the shell's handlers;
* `Sway.Named`: object arguments are of the declared interface.

## Main results

* `object_arguments_typed`: what handlers see, and that along every run of such events a view's
  buffers are buffers.
-/

namespace Wos.Wayland

open Option

/-- The interfaces whose objects the shell keeps something for; the others have no `user_data`. -/
inductive Iface
  | surface | buffer | shmPool | callback | xdgSurface | toplevel | other
  deriving DecidableEq, Repr

/-- What a resource's `user_data` points to. -/
inductive Ptr
  | pool (n : ℕ) | buffer (n : ℕ) | view (n : ℕ)
  deriving DecidableEq, Repr

/-- `struct view`, without its geometry and texts. A view is named by its surface. `pending` and
`current` are the pointers as they are stored, whatever they point to. -/
structure View where
  client : ℕ
  xdgSurface : Option ℕ
  toplevel : Option ℕ
  pending : Option Ptr
  pendingSet : Bool
  current : Option Ptr
  mapped : Bool
  deriving DecidableEq, Repr

abbrev Res := Resource Iface Ptr

/-- The state. `res`, `views` and `buffers` hold the objects that are alive (a buffer with its
`released`), `leaves` the windows of the tree, which are the views that have a node. -/
structure Sway where
  next : ℕ
  serverId : ℕ → ℕ
  res : ℕ → Option Res
  views : ℕ → Option View
  buffers : ℕ → Option Bool
  frames : List ℕ
  leaves : List ℕ
  focus : Option ℕ
  fullscreen : Option ℕ
  focused : Option ℕ

/-- The compositor before the first client. -/
def Sway.start : Sway :=
  ⟨0, fun _ => 4278190080, fun _ => none, fun _ => none, fun _ => none, [], [], none, none, none⟩

namespace Sway

/-- The objects of a client. The list in the source has the newest in front. -/
def objects (s : Sway) (c : ℕ) : List Res :=
  ((List.range s.next).reverse.filterMap s.res).filter fun r => decide (r.client = c)

def setView (s : Sway) (n : ℕ) (v : View) : Sway :=
  { s with views := Function.update s.views n (some v) }

/-! ## The layout -/

/-- `shell_configure`: the window's two resources are written to when both are there. -/
def configures (s : Sway) (n : ℕ) : Bool :=
  match s.views n with
  | none => false
  | some v =>
    match v.toplevel, v.xdgSurface with
    | some t, some x => (s.res t).isSome && (s.res x).isSome
    | _, _ => true

/-- `layout_arrange`: the fullscreen view and every window are configured. -/
def layoutArrange (s : Sway) : Option Sway :=
  if s.fullscreen.all s.configures && s.leaves.all s.configures then some s else none

/-- `layout_focus`, with `shell_focus_changed`. -/
def layoutFocus (s : Sway) (n : Option ℕ) : Option Sway :=
  if s.focused = n then some s
  else if s.focused.all s.configures && n.all s.configures then
    some { s with focused := n, focus := n.or s.focus }
  else none

/-- `layout_add_view`: beside the focused window, or at the end. -/
def layoutAddView (s : Sway) (n : ℕ) : Option Sway :=
  match s.focus with
  | some f =>
    if f ∈ s.leaves then
      (layoutFocus { s with
        leaves := s.leaves.flatMap fun m => if m = f then [m, n] else [m]
        focus := some n } (some n)).bind layoutArrange
    else none
  | none => (layoutFocus { s with leaves := s.leaves ++ [n], focus := some n } (some n)).bind
      layoutArrange

/-- Where the focus lands: the next window, or the one before, or whatever is left. -/
def successor (leaves : List ℕ) (n : ℕ) : Option ℕ :=
  ((leaves.dropWhile (· ≠ n)).tail.head?.or (leaves.takeWhile (· ≠ n)).getLast?).or
    (leaves.erase n).head?

/-- `layout_remove_view`. -/
def layoutRemoveView (s : Sway) (n : ℕ) : Option Sway :=
  if s.views n = none then none
  else if n ∉ s.leaves then some s
  else
    let focus := if s.focus = some n ∨ s.focus = none then successor s.leaves n else s.focus
    if focus.all (· ∈ s.leaves.erase n) then
      (layoutFocus { s with
        leaves := s.leaves.erase n
        focus := focus
        fullscreen := if s.fullscreen = some n then none else s.fullscreen
        focused := if s.focused = some n then none else s.focused } focus).bind layoutArrange
    else none

/-! ## Resources -/

/-- `wl_resource_create`, and whether it made one: not when the client uses the id already. An id of
zero is the server's to choose. The new resource is named by the counter. -/
def wlResourceCreate (s : Sway) (c : ℕ) (i : Iface) (id : ℕ) (data : Option Ptr) : Sway × Bool :=
  let wire := if id = 0 then s.serverId c else id
  let ids := if id = 0 then Function.update s.serverId c (wire + 1) else s.serverId
  if (wlClientGetObject (s.objects c) wire).isSome then ({ s with serverId := ids }, false)
  else ({ s with
    next := s.next + 1
    serverId := ids
    res := Function.update s.res s.next (some ⟨s.next, c, wire, i, data⟩) }, true)

/-- `buffer_destroy_resource`'s loop over the views. -/
def View.forget (v : View) (p : Ptr) : View :=
  { v with
    current := if v.current = some p then none else v.current
    pending := if v.pending = some p then none else v.pending
    pendingSet := if v.pending = some p then false else v.pendingSet }

/-- The `destroy` of a resource: only buffers and surfaces keep something the shell points to. -/
def destroyed (s : Sway) (r : Res) : Option Sway :=
  match r.interface, r.data with
  | .buffer, some (.buffer m) =>
    if s.buffers m = none then none
    else some { s with
      views := fun n => (s.views n).map (View.forget · (.buffer m))
      buffers := Function.update s.buffers m none }
  | .surface, some (.view n) =>
    (s.layoutRemoveView n).map fun s => { s with views := Function.update s.views n none }
  | _, _ => some s

/-- `wl_resource_destroy`. -/
def wlResourceDestroy (s : Sway) (r : Res) : Option Sway :=
  (s.destroyed r).map fun s => { s with res := Function.update s.res r.handle none }

/-- `wl_client_destroy`: the objects of a client one after another, in the order of its list. -/
def wlClientDestroy (s : Sway) (c : ℕ) : Option Sway :=
  (s.objects c).foldlM wlResourceDestroy s

/-! ## Buffers -/

/-- A pointer read as a buffer. -/
def buffer? (s : Sway) : Ptr → Option ℕ
  | .buffer m => if (s.buffers m).isSome then some m else none
  | _ => none

/-- `shell_release_buffer`: the event goes to the buffer's resource. -/
def shellReleaseBuffer (s : Sway) (p : Ptr) : Option Sway :=
  match s.buffer? p with
  | none => none
  | some m =>
    if s.buffers m = some true then some s
    else if (s.res m).isSome then some { s with buffers := Function.update s.buffers m (some true) }
    else none

/-- The old buffer goes back to the client as the new one arrives. -/
def releaseCurrent (s : Sway) (v : View) : Option Sway :=
  match v.current with
  | some p => if v.current = v.pending then some s else s.shellReleaseBuffer p
  | none => some s

/-- `v->current->released = 0`, for the buffer that arrives. -/
def holdPending (s : Sway) (v : View) : Option Sway :=
  match v.pending with
  | some p =>
    (s.buffer? p).map fun m => { s with buffers := Function.update s.buffers m (some false) }
  | none => some s

/-- `surface_commit`, up to the pending buffer becoming the current one. -/
def takePending (s : Sway) (n : ℕ) (v : View) : Option Sway :=
  if v.pendingSet then
    (s.releaseCurrent v).bind fun s => (s.holdPending v).map fun s =>
      s.setView n { v with current := v.pending, pending := none, pendingSet := false }
  else some s

/-- `surface_commit`. -/
def surfaceCommit (s : Sway) (n : ℕ) : Option Sway := do
  let v ← s.views n
  let s ← s.takePending n v
  let v ← s.views n
  if v.mapped = false ∧ v.toplevel.isSome ∧ v.current.isSome then
    (s.setView n { v with mapped := true }).layoutAddView n
  else some s

/-- What is drawn: the current buffer of each window, and the title of the focused one. -/
def draws (s : Sway) (n : ℕ) : Bool :=
  match s.views n with
  | none => false
  | some v => v.current.all fun p => (s.buffer? p).isSome

def render (s : Sway) : Option Sway :=
  if s.leaves.all s.draws && s.fullscreen.all s.draws && s.focused.all fun n => (s.views n).isSome
  then some s else none

/-- One callback of `shell_frame_done`: it is told, and destroyed. -/
def frameCallbackDone (s : Sway) (h : ℕ) : Option Sway :=
  if (s.res h).isSome then some { s with res := Function.update s.res h none } else none

/-- `shell_frame_done`. -/
def shellFrameDone (s : Sway) : Option Sway :=
  (s.frames.foldlM frameCallbackDone s).map fun s => { s with frames := [] }

end Sway

/-! ## Events -/

/-- The requests, with the ids the client sends: the object it is for comes first. -/
inductive Request
  | createPool (id : ℕ) | createBuffer (pool id : ℕ) | createSurface (id : ℕ) | createOther (id : ℕ)
  | destroyPool (t : ℕ) | destroyOther (t : ℕ) | destroyBuffer (t : ℕ) | destroySurface (t : ℕ)
  | attach (t buffer : ℕ) | frame (t id : ℕ) | commit (t : ℕ)
  | getXdgSurface (id surface : ℕ) | destroyXdgSurface (t : ℕ) | ackConfigure (t : ℕ)
  | getToplevel (t id : ℕ) | destroyToplevel (t : ℕ) | setTitle (t : ℕ)
  | setFullscreen (t : ℕ) | unsetFullscreen (t : ℕ)
  deriving DecidableEq, Repr

/-- What happens to the compositor. -/
inductive Event
  | request (c : ℕ) (r : Request)
  | disconnect (c : ℕ)
  | render | frameDone
  deriving DecidableEq, Repr

namespace Sway

/-- A client's object of the given interface: the dispatcher reads the table of the interface the
object has, so a handler is only called for its own. -/
def target (s : Sway) (c t : ℕ) (i : Iface) : Option Res :=
  (wlClientGetObject (s.objects c) t).filter fun r => decide (r.interface = i)

/-- The view a resource points to. -/
def viewOf (r : Res) : Option ℕ :=
  match r.data with
  | some (.view n) => some n
  | _ => none

/-- A request for an object of the client; a message for anything else changes nothing here. -/
def on (s : Sway) (c t : ℕ) (i : Iface) (f : Res → Option Sway) : Option Sway :=
  match s.target c t i with
  | none => some s
  | some r => f r

/-- A handler that starts with `wl_resource_get_user_data` and uses the view. -/
def onView (s : Sway) (c t : ℕ) (i : Iface) (f : Res → ℕ → View → Option Sway) : Option Sway :=
  s.on c t i fun r => do
    let n ← viewOf r
    let v ← s.views n
    f r n v

/-- `wl_client_get_object` for an object argument. -/
def objectArg (s : Sway) (c id : ℕ) : Option Res :=
  if id = 0 then none else wlClientGetObject (s.objects c) id

/-- The handlers. -/
def handle (s : Sway) (c : ℕ) : Request → Option Sway
  | .createPool id => some (s.wlResourceCreate c .shmPool id (some (.pool s.next))).1
  | .createBuffer pool id => s.on c pool .shmPool fun _ =>
    match s.wlResourceCreate c .buffer id (some (.buffer s.next)) with
    | (s', true) => some { s' with buffers := Function.update s'.buffers s.next (some false) }
    | (s', false) => some s'
  | .createSurface id =>
    match s.wlResourceCreate c .surface id (some (.view s.next)) with
    | (s', true) => some (s'.setView s.next ⟨c, none, none, none, false, none, false⟩)
    | (s', false) => some s'
  | .createOther id => some (s.wlResourceCreate c .other id none).1
  | .destroyPool t => s.on c t .shmPool s.wlResourceDestroy
  | .destroyOther t => s.on c t .other s.wlResourceDestroy
  | .destroyBuffer t => s.on c t .buffer s.wlResourceDestroy
  | .destroySurface t => s.on c t .surface s.wlResourceDestroy
  | .attach t buffer => s.onView c t .surface fun _ n v =>
    some (s.setView n { v with pending := (s.objectArg c buffer).bind (·.data), pendingSet := true })
  | .frame t id => s.on c t .surface fun _ =>
    match s.wlResourceCreate c .callback id none with
    | (s', true) =>
      if s.frames.length < 32 then some { s' with frames := s.frames ++ [s.next] }
      else some { s' with res := s.res }
    | (s', false) => some s'
  | .commit t => s.onView c t .surface fun _ n _ => s.surfaceCommit n
  | .getXdgSurface id surface =>
    match (s.objectArg c surface).filter fun r => decide (r.interface = .surface) with
    | none => some s
    | some r => do
      let n ← viewOf r
      let v ← s.views n
      match s.wlResourceCreate c .xdgSurface id (some (.view n)) with
      | (s', true) => some (s'.setView n { v with xdgSurface := some s.next })
      | (s', false) => some (s'.setView n { v with xdgSurface := none })
  | .destroyXdgSurface t => s.on c t .xdgSurface s.wlResourceDestroy
  | .ackConfigure t => s.onView c t .xdgSurface fun _ _ _ => some s
  | .getToplevel t id => s.onView c t .xdgSurface fun _ n v =>
    match s.wlResourceCreate c .toplevel id (some (.view n)) with
    | (s', true) =>
      if (s'.setView n { v with toplevel := some s.next }).configures n then
        some (s'.setView n { v with toplevel := some s.next })
      else none
    | (s', false) => some (s'.setView n { v with toplevel := none })
  | .destroyToplevel t => s.onView c t .toplevel fun r n _ => do
    let s ← s.layoutRemoveView n
    let v ← s.views n
    (s.setView n { v with toplevel := none, mapped := false }).wlResourceDestroy r
  | .setTitle t => s.onView c t .toplevel fun _ _ _ => some s
  | .setFullscreen t => s.on c t .toplevel fun r =>
    layoutArrange { s with fullscreen := viewOf r }
  | .unsetFullscreen t => s.on c t .toplevel fun r =>
    layoutArrange { s with fullscreen := if s.fullscreen = viewOf r then none else s.fullscreen }

/-- One event. -/
def exec (s : Sway) : Event → Option Sway
  | .request c r => s.handle c r
  | .disconnect c => s.wlClientDestroy c
  | .render => s.render
  | .frameDone => s.shellFrameDone

/-! ## What the parts of a handler do -/

/-- Two states with the same objects: the layout may differ. -/
structure SameObjects (s s' : Sway) : Prop where
  next : s'.next = s.next
  res : s'.res = s.res
  views : s'.views = s.views
  buffers : s'.buffers = s.buffers
  frames : s'.frames = s.frames

variable {s s' : Sway}

lemma layoutArrange_eq (h : s.layoutArrange = some s') : s' = s := by
  unfold layoutArrange at h
  split_ifs at h
  exact (some.inj h).symm

lemma layoutFocus_same {n : Option ℕ} (h : s.layoutFocus n = some s') : SameObjects s s' := by
  unfold layoutFocus at h
  split_ifs at h <;> cases h <;> exact ⟨rfl, rfl, rfl, rfl, rfl⟩

lemma layoutFocus_arrange_same {n : Option ℕ}
    (h : (s.layoutFocus n).bind layoutArrange = some s') : SameObjects s s' := by
  obtain ⟨s1, hfocus, harr⟩ := bind_eq_some_iff.mp h
  obtain rfl := layoutArrange_eq harr
  exact layoutFocus_same hfocus

variable {n : ℕ}

lemma layoutAddView_same (h : s.layoutAddView n = some s') : SameObjects s s' := by
  unfold layoutAddView at h
  split at h
  · split_ifs at h
    exact { layoutFocus_arrange_same h with }
  · exact { layoutFocus_arrange_same h with }

lemma layoutRemoveView_same (h : s.layoutRemoveView n = some s') : SameObjects s s' := by
  unfold layoutRemoveView at h
  dsimp only at h
  split_ifs at h
  all_goals first
    | exact { layoutFocus_arrange_same h with }
    | (cases h; exact ⟨rfl, rfl, rfl, rfl, rfl⟩)

variable {c t : ℕ} {i : Iface}

variable {r : Res}

/-- An object of a client is one of the resources that are alive. -/
lemma mem_objects (h : r ∈ s.objects c) : r.client = c ∧ ∃ k < s.next, s.res k = some r := by
  obtain ⟨hmem, hc⟩ := List.mem_filter.mp h
  obtain ⟨k, hk, hr⟩ := List.mem_filterMap.mp hmem
  exact ⟨by simpa using hc, k, by simpa using hk, hr⟩

lemma target_spec (h : s.target c t i = some r) : r.interface = i ∧ r ∈ s.objects c := by
  obtain ⟨hr, hi⟩ := filter_eq_some_iff.mp h
  exact ⟨by simpa using hi, (wlClientGetObject_mem hr).1⟩

lemma objectArg_mem {id : ℕ} (h : s.objectArg c id = some r) : r ∈ s.objects c := by
  unfold objectArg at h
  split_ifs at h
  exact (wlClientGetObject_mem h).1

/-- What `wl_resource_create` changes. -/
lemma wlResourceCreate_cases (s : Sway) (c : ℕ) (i : Iface) (id : ℕ) (data : Option Ptr) :
    ∃ ids wire, s.wlResourceCreate c i id data = ({ s with serverId := ids }, false) ∨
      s.wlResourceCreate c i id data = ({ s with
        next := s.next + 1
        serverId := ids
        res := Function.update s.res s.next (some ⟨s.next, c, wire, i, data⟩) }, true) := by
  let wire := if id = 0 then s.serverId c else id
  refine ⟨if id = 0 then Function.update s.serverId c (wire + 1) else s.serverId, wire, ?_⟩
  unfold wlResourceCreate
  by_cases hused : (wlClientGetObject (s.objects c) wire).isSome
  · exact .inl (if_pos hused)
  · exact .inr (if_neg hused)

/-! ## Buffers are buffers -/

/-- Buffer resources have buffers, and so have the views. -/
structure Proper (s : Sway) : Prop where
  buffers : ∀ h r, s.res h = some r → r.interface = .buffer → ∃ m, r.data = some (.buffer m)
  shown : ∀ n v p, s.views n = some v → v.pending = some p ∨ v.current = some p →
    ∃ m, p = .buffer m

section

variable (h : Proper s)

include h

lemma Proper.of_same (hres : s'.res = s.res) (hviews : s'.views = s.views) : Proper s' :=
  ⟨hres ▸ h.buffers, hviews ▸ h.shown⟩

lemma Proper.setView (n : ℕ) {v : View}
    (hv : ∀ p, v.pending = some p ∨ v.current = some p → ∃ m, p = .buffer m) :
    Proper (s.setView n v) := by
  refine ⟨h.buffers, fun k w p hw hp => ?_⟩
  by_cases hk : k = n
  · subst hk
    simp only [Sway.setView, Function.update_self] at hw
    obtain rfl := some.inj hw
    exact hv p hp
  · simp only [Sway.setView, Function.update_of_ne hk] at hw
    exact h.shown k w p hw hp

lemma Proper.remove (k : ℕ) : Proper { s with res := Function.update s.res k none } := by
  refine ⟨fun j r hr hi => ?_, h.shown⟩
  by_cases hj : j = k
  · subst hj
    simp at hr
  · dsimp only at hr
    rw [Function.update_of_ne hj] at hr
    exact h.buffers j r hr hi

/-- A new resource for a buffer has a buffer. -/
lemma Proper.create (c : ℕ) (i : Iface) (id : ℕ) (data : Option Ptr)
    (hd : i = .buffer → ∃ m, data = some (.buffer m)) :
    Proper (s.wlResourceCreate c i id data).1 := by
  obtain ⟨ids, wire, hc | hc⟩ := wlResourceCreate_cases s c i id data
  · rw [hc]
    exact ⟨h.buffers, h.shown⟩
  rw [hc]
  refine ⟨fun j r hr hi => ?_, h.shown⟩
  by_cases hj : j = s.next
  · subst hj
    simp only [Function.update_self, some.injEq] at hr
    subst hr
    exact hd hi
  · dsimp only at hr
    rw [Function.update_of_ne hj] at hr
    exact h.buffers j r hr hi

/-- Destroying a resource keeps views with buffers. -/
lemma Proper.destroyed (hd : s.destroyed r = some s') : Proper s' := by
  unfold Sway.destroyed at hd
  split at hd
  · split_ifs at hd
    cases hd
    refine ⟨h.buffers, fun n v p hv hp => ?_⟩
    obtain ⟨w, hw, rfl⟩ := map_eq_some_iff.mp hv
    refine h.shown n w p hw (hp.imp ?_ ?_) <;> intro hp <;> simp only [View.forget] at hp <;>
      split_ifs at hp <;> exact hp
  · obtain ⟨s1, hrem, rfl⟩ := map_eq_some_iff.mp hd
    have hsame := layoutRemoveView_same hrem
    refine ⟨hsame.res ▸ h.buffers, fun n v p hv hp => ?_⟩
    simp only [Function.update_apply] at hv
    split_ifs at hv
    exact h.shown n v p (hsame.views ▸ hv) hp
  · cases hd
    exact h

lemma Proper.destroy (hd : s.wlResourceDestroy r = some s') : Proper s' := by
  obtain ⟨s1, hgone, rfl⟩ := map_eq_some_iff.mp hd
  exact (h.destroyed hgone).remove r.handle

/-- So does a commit. -/
lemma Proper.takePending {v : View} (hv : s.views n = some v) (ht : s.takePending n v = some s') :
    Proper s' := by
  unfold Sway.takePending at ht
  split_ifs at ht
  · obtain ⟨s1, h1, ht⟩ := bind_eq_some_iff.mp ht
    obtain ⟨s2, h2, rfl⟩ := map_eq_some_iff.mp ht
    have hp1 : Proper s1 := by
      unfold releaseCurrent at h1
      split at h1
      · split_ifs at h1
        · cases h1
          exact h
        unfold shellReleaseBuffer at h1
        split at h1
        · cases h1
        · split_ifs at h1 <;> cases h1 <;> exact ⟨h.buffers, h.shown⟩
      · cases h1
        exact h
    have hp2 : Proper s2 := by
      unfold holdPending at h2
      split at h2
      · obtain ⟨m, -, rfl⟩ := map_eq_some_iff.mp h2
        exact ⟨hp1.buffers, hp1.shown⟩
      · cases h2
        exact hp1
    exact hp2.setView n fun p hp => h.shown n v p hv (.inl (by simpa using hp))
  · cases ht
    exact h

lemma Proper.surfaceCommit (hc : s.surfaceCommit n = some s') : Proper s' := by
  obtain ⟨v, hv, hc⟩ := bind_eq_some_iff.mp hc
  obtain ⟨s1, htake, hc⟩ := bind_eq_some_iff.mp hc
  obtain ⟨w, hw, hc⟩ := bind_eq_some_iff.mp hc
  have h1 := h.takePending hv htake
  split_ifs at hc
  · have hsame := layoutAddView_same hc
    have h2 : Proper (s1.setView n { w with mapped := true }) := h1.setView n (h1.shown n w · hw)
    exact h2.of_same hsame.res hsame.views
  · cases hc
    exact h1

end

/-- The client names a buffer, or nothing, where the protocol says a buffer. -/
def named (s : Sway) : Event → Bool
  | .request c (.attach _ buffer) =>
    (s.objectArg c buffer).all fun r => decide (r.interface = .buffer)
  | _ => true

def Named (s : Sway) (e : Event) : Prop := s.named e = true

instance instDecidableNamed (s : Sway) (e : Event) : Decidable (s.Named e) :=
  inferInstanceAs (Decidable (s.named e = true))

/-- A handler that starts with its object. -/
lemma Proper.on (h : Proper s) {f : Res → Option Sway} (hf : ∀ r, f r = some s' → Proper s')
    (hq : s.on c t i f = some s') : Proper s' := by
  unfold Sway.on at hq
  split at hq
  · cases hq
    exact h
  · exact hf _ hq

/-- A handler that starts with the view of its object. -/
lemma Proper.onView (h : Proper s) {f : Res → ℕ → View → Option Sway}
    (hf : ∀ r n v, s.views n = some v → f r n v = some s' → Proper s')
    (hq : s.onView c t i f = some s') : Proper s' := by
  refine h.on (fun r hq => ?_) hq
  obtain ⟨n, -, hq⟩ := bind_eq_some_iff.mp hq
  obtain ⟨v, hv, hq⟩ := bind_eq_some_iff.mp hq
  exact hf r n v hv hq

/-- Every handler keeps buffers apart from the rest, if object arguments are what they should be. -/
theorem Proper.handle (h : Proper s) {q : Request} (hn : s.Named (.request c q))
    (hq : s.handle c q = some s') : Proper s' := by
  cases q with
  | createPool id | createOther id => cases hq; exact h.create c _ id _ (by simp)
  | createBuffer pool id =>
    refine h.on (fun r hq => ?_) hq
    have hmade := h.create c .buffer id (some (.buffer s.next)) fun _ => ⟨_, rfl⟩
    split at hq <;> rename_i s1 heq <;> rw [heq] at hmade <;> cases hq
    · exact ⟨hmade.buffers, hmade.shown⟩
    · exact hmade
  | createSurface id =>
    have hmade := h.create c .surface id (some (.view s.next)) (by simp)
    simp only [Sway.handle] at hq
    split at hq <;> rename_i s1 heq <;> rw [heq] at hmade <;> cases hq
    · exact hmade.setView _ (by simp)
    · exact hmade
  | destroyPool t | destroyOther t | destroyBuffer t | destroySurface t | destroyXdgSurface t =>
    exact h.on (fun r hq => h.destroy hq) hq
  | attach t buffer =>
    refine h.onView (fun r n v hv hq => ?_) hq
    cases hq
    refine h.setView n ?_
    rintro p (hp | hp)
    · obtain ⟨o, ho, hdata⟩ := bind_eq_some_iff.mp hp
      obtain ⟨-, k, -, hk⟩ := mem_objects (objectArg_mem ho)
      have hbuf : o.interface = .buffer := by simpa [Named, named, ho] using hn
      obtain ⟨m, hm⟩ := h.buffers k o hk hbuf
      exact ⟨m, mem_unique hdata hm⟩
    · exact h.shown n v p hv (.inr hp)
  | frame t id =>
    refine h.on (fun r hq => ?_) hq
    have hmade := h.create c .callback id none (by simp)
    split at hq <;> rename_i s1 heq <;> rw [heq] at hmade
    · split_ifs at hq <;> cases hq
      · exact ⟨hmade.buffers, hmade.shown⟩
      · exact ⟨h.buffers, hmade.shown⟩
    · cases hq
      exact hmade
  | commit t => exact h.onView (fun r n v _ hq => h.surfaceCommit hq) hq
  | getXdgSurface id surface =>
    simp only [Sway.handle] at hq
    split at hq
    · cases hq
      exact h
    obtain ⟨n, -, hq⟩ := bind_eq_some_iff.mp hq
    obtain ⟨v, hv, hq⟩ := bind_eq_some_iff.mp hq
    have hmade := h.create c .xdgSurface id (some (.view n)) (by simp)
    split at hq <;> rename_i s1 heq <;> rw [heq] at hmade <;> cases hq <;>
      exact hmade.setView n (h.shown n v · hv)
  | ackConfigure t | setTitle t =>
    refine h.onView (fun r n v _ hq => ?_) hq
    cases hq
    exact h
  | getToplevel t id =>
    refine h.onView (fun r n v hv hq => ?_) hq
    have hmade := h.create c .toplevel id (some (.view n)) (by simp)
    split at hq <;> rename_i s1 heq <;> rw [heq] at hmade
    · split_ifs at hq
      cases hq
      exact hmade.setView n (h.shown n v · hv)
    · cases hq
      exact hmade.setView n (h.shown n v · hv)
  | destroyToplevel t =>
    refine h.onView (fun r n v _ hq => ?_) hq
    obtain ⟨s1, hrem, hq⟩ := bind_eq_some_iff.mp hq
    obtain ⟨w, hw, hq⟩ := bind_eq_some_iff.mp hq
    have hsame := layoutRemoveView_same hrem
    have h1 := h.of_same hsame.res hsame.views
    have h2 : Proper (s1.setView n { w with toplevel := none, mapped := false }) :=
      h1.setView n (h1.shown n w · hw)
    exact h2.destroy hq
  | setFullscreen t | unsetFullscreen t =>
    refine h.on (fun r hq => ?_) hq
    rw [layoutArrange_eq hq]
    exact ⟨h.buffers, h.shown⟩

/-- One event. -/
lemma Proper.exec (h : Proper s) {e : Event} (hn : s.Named e) (he : s.exec e = some s') :
    Proper s' := by
  cases e with
  | request c q => exact h.handle hn he
  | disconnect c =>
    exact foldlM_keeps (P := Proper) (fun r _ s s' hs hr => hs.destroy hr) h he
  | render =>
    simp only [Sway.exec, Sway.render] at he
    split_ifs at he
    cases he
    exact h
  | frameDone =>
    obtain ⟨s1, hfold, rfl⟩ := map_eq_some_iff.mp he
    have h1 : Proper s1 := by
      refine foldlM_keeps (P := Proper) (fun k _ s s' hs hk => ?_) h hfold
      unfold frameCallbackDone at hk
      split_ifs at hk
      cases hk
      exact hs.remove k
    exact ⟨h1.buffers, h1.shown⟩

lemma proper_start : Proper start := ⟨by simp [start], by simp [start]⟩

end Sway

/-- What the dispatcher hands to a request handler is of the declared interface exactly when the
client named such an object. Where clients always do, a view's pending and current pointers are null
or buffers in every state the compositor reaches. -/
theorem object_arguments_typed {ι δ : Type} (methods : ι → List (Message ι))
    (implemented : Resource ι δ → ℕ → Bool) (objects : List (Resource ι δ)) (id opcode : ℕ)
    (body : Buf) (bodyLen : ℕ) (fds : List ℕ) (scratch : ℕ × ℕ) :
    ((dispatchMessage methods implemented objects id opcode body bodyLen fds scratch).Typed objects ↔
      ∀ target, wlClientGetObject objects id = some target →
        ∀ m, (methods target.interface)[opcode]? = some m → implemented target opcode = true →
        (wlConnectionUnpack m.signature body bodyLen wlMaxArgs fds scratch).2 = true →
        NamesDeclared objects m
          (wlConnectionUnpack m.signature body bodyLen wlMaxArgs fds scratch).1.args) ∧
    ∀ events s, Run (someStep Sway.Named Sway.exec) Sway.start events s → ∀ n v p, s.views n = some v →
      v.pending = some p ∨ v.current = some p → ∃ m, p = .buffer m := by
  refine ⟨dispatchMessage_typed_iff methods implemented objects id opcode body bodyLen fds scratch,
    fun events s hrun => ?_⟩
  have hproper : s.Proper := hrun.invariant (fun s e s' h hstep => h.exec hstep.1 hstep.2)
    Sway.proper_start
  exact hproper.shown

/-- A window with its buffer. -/
def windowEvents : List Event :=
  [.request 0 (.createSurface 2), .request 0 (.createPool 3), .request 0 (.createBuffer 3 4),
    .request 0 (.getXdgSurface 5 2), .request 0 (.getToplevel 5 6), .request 0 (.attach 2 4),
    .request 0 (.frame 2 7), .request 0 (.commit 2), .frameDone, .render]

theorem window_buffer : ∃ s, follow Sway.Named Sway.exec Sway.start windowEvents = some s ∧
    (∃ v, s.views 0 = some v ∧ v.current = some (.buffer 2)) ∧
    ∀ n v p, s.views n = some v → v.pending = some p ∨ v.current = some p → ∃ m, p = .buffer m := by
  have hsome : ((follow Sway.Named Sway.exec Sway.start windowEvents).bind fun s =>
      (s.views 0).bind (·.current)) = some (.buffer 2) := by decide
  obtain ⟨s, hs, h⟩ := bind_eq_some_iff.mp hsome
  obtain ⟨v, hv, hcur⟩ := bind_eq_some_iff.mp h
  exact ⟨s, hs, ⟨v, hv, hcur⟩, (object_arguments_typed (ι := Iface) (δ := Ptr) (fun _ => [])
    (fun _ _ => true) [] 0 0 Buf.zero 0 [] (0, 0)).2 windowEvents s (follow_run hs)⟩

/-- The type confusion: a client that attaches its pool has the pool for a pending buffer. -/
theorem pool_attached :
    ((List.foldlM Sway.exec Sway.start [.request 0 (.createSurface 2), .request 0 (.createPool 3),
      .request 0 (.attach 2 3)]).bind fun s => (s.views 0).bind (·.pending)) = some (.pool 1) := by
  decide

end Wos.Wayland
