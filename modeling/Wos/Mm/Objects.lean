import Wos.Mm.Sound

/-!
# Shared objects and their mappings

The calls of the memory machine that deal with shared objects keep the invariant. Mapping an object is
taking a handle to it and then turning the handle into a mapping; unmapping it is turning the mapping into
a handle and then giving that back.

## Main results

* `Sound.shmCreate`, `Sound.shmRef`, `Sound.shmUnref`: objects;
* `Sound.toMapping`, `Sound.toHandle`: handles and mappings;
* `Sound.shmMap`, `Sound.shmUnmap`, `Sound.shmUnmapAll`: the calls.
-/

namespace Wos.Mm

open Function Memory Option Finset List

variable {ι : Type*} [Fintype ι] [DecidableEq ι] {m₀ : Pmm} {w : Memory ι} {p : ι} {q : ProcMem}
  {v : ℕ}

/-! ## Objects -/

variable {sh : Shm} {handles base pages : ℕ} {x : Mapping}

section Objects

variable {kept : Set ℕ} {total o : ℕ} {m : Pmm} {priv : ι → Slot → Option ℕ} {shms : Shms}
  {files : ℕ → Blocks}

omit [Fintype ι] in
/-- An object gets one more frame. -/
lemma slots_shm_append (r f : ℕ) (taken : List ℕ) :
    slots priv (update shms o (some ⟨r, taken ++ [f]⟩)) files =
      update (slots priv (update shms o (some ⟨r, taken⟩)) files)
        (.shm o taken.length) (some f) := by
  funext x
  cases x with
  | space p σ => simp [slots]
  | file n i => simp [slots]
  | shm o' k =>
    simp only [slots, update_apply, Owner.shm.injEq]
    by_cases ho : o' = o
    · simp only [ho, if_true, true_and, bind_some]
      by_cases hk : k = taken.length
      · simp [hk]
      rw [if_neg hk, getElem?_append]
      split_ifs with hlt
      · rfl
      · rw [getElem?_eq_none (by simp; omega), getElem?_eq_none (by omega)]
    · simp [ho]

omit [DecidableEq ι] [Fintype ι] in
/-- What is counted for an object and whether it has a record does not matter, as long as its frames
are the same. -/
lemma slots_shm_congr {c : Option Shm} (h : c.elim [] Shm.frames = (shms o).elim [] Shm.frames) :
    slots priv (update shms o c) files = slots priv shms files := by
  have hframes : ∀ (sh : Option Shm) (k : ℕ), (sh.bind fun sh => sh.frames[k]?) =
      (sh.elim [] Shm.frames)[k]? := by
    rintro (_ | sh) k <;> simp
  funext x
  cases x with
  | space p σ => rfl
  | file n i => rfl
  | shm o' k =>
    simp only [slots, update_apply]
    split_ifs with ho
    · rw [hframes, hframes, h, ho]
    · rfl

omit [DecidableEq ι] [Fintype ι] in
/-- The frames of an object can be given back. -/
lemma Books.giveShm (h : Books kept total m (slots priv shms files))
    (ho : shms o = some sh) : ∃ m', m.freeFrames sh.frames = .ok m' ∧
      Books kept total m' (slots priv (update shms o none) files) := by
  have hholds : ∀ k, slots priv shms files (.shm o k) = sh.frames[k]? := by
    intro k
    simp [slots, ho]
  have hnodup : sh.frames.Nodup := by
    rw [nodup_iff_getElem?_ne_getElem?]
    intro i j hij hj heq
    have hsome : sh.frames[j]? = some (sh.frames.get ⟨j, hj⟩) := by simp
    have hsame := h.owned.inj (.shm o i) (.shm o j) _ ((hholds i).trans (heq.trans hsome))
      ((hholds j).trans hsome)
    simp at hsame
    omega
  obtain ⟨m', hfree, -, hbooks⟩ := h.give hnodup (D := fun x => ∃ k, x = Owner.shm o k)
    (G := slots priv (update shms o none) files)
    (fun r => by
      rw [mem_iff_getElem?]
      constructor
      · rintro ⟨k, hk⟩
        exact ⟨_, ⟨k, rfl⟩, (hholds k).trans hk⟩
      · rintro ⟨x, ⟨k, rfl⟩, hx⟩
        exact ⟨k, (hholds k).symm.trans hx⟩)
    (fun x hx => by
      obtain ⟨k, rfl⟩ := hx
      simp [slots])
    (fun x hx => by
      cases x with
      | space p σ => rfl
      | file n i => rfl
      | shm o' k =>
        have ho' : o' ≠ o := fun ho' => hx ⟨k, by rw [ho']⟩
        simp [slots, ho'])
  exact ⟨m', hfree, hbooks⟩

omit [Fintype ι] in
/-- The loop of `shm_create`: the object has the frames taken so far. When there are no more, it gives
them back. -/
lemma takeFrames_spec {r : ℕ} (n : ℕ) (taken : List ℕ)
    (h : Books kept total m (slots priv (update shms o (some ⟨r, taken⟩)) files)) :
    ∃ frames m', takeFrames n taken m = .ok (frames, m') ∧
      Books kept total m'
        (slots priv (update shms o (frames.map fun frames => ⟨r, frames⟩)) files) := by
  induction n generalizing taken m with
  | zero => exact ⟨some taken, m, rfl, h⟩
  | succ n ih =>
    rcases m.allocFrame_cases with ⟨f, m1, halloc, -, htook⟩ | ⟨m1, halloc, hm1⟩
    · have htaken := (h.took htook).place (x := .shm o taken.length) (h.notMem_of_took htook) h.zero
        (htook.total.symm ▸ htook.lt) (by simp [slots])
      rw [← slots_shm_append] at htaken
      obtain ⟨frames, m', hrest, hbooks⟩ := ih _ htaken
      exact ⟨frames, m', by simp only [takeFrames, halloc, hrest], hbooks⟩
    · obtain rfl : m1 = m := hm1.resolve_right h.not_took_zero
      obtain ⟨m', hfree, hbooks⟩ := h.giveShm (o := o) (update_self ..)
      rw [update_idem] at hbooks
      exact ⟨none, m', by simp only [takeFrames, halloc, hfree], hbooks⟩

end Objects

variable {m' : Pmm}

variable {o : ℕ}

omit [DecidableEq ι] in
/-- An object changes, but not its frames while it is mapped. -/
lemma Sound.setShm (h : Sound m₀ w) {sh' : Option Shm}
    (hbooks : Books {f | m₀.used f = true} m₀.total m'
      (slots w.priv (update w.shms o sh') w.files))
    (hframes : w.mappers o = ∅ ∨ sh'.map (·.frames) = (w.shms o).map (·.frames))
    (hrefs : ∀ sh, sh' = some sh → sh.refs = handles + (w.mappers o).card)
    (hhandles : sh' = none → handles = 0) :
    Sound m₀ { w with
      pmm := m'
      shms := update w.shms o sh'
      handles := update w.handles o handles } where
  books := hbooks
  procs p q hq := (h.procs p q hq).setShms fun i x sh hx hsh => by
    have hq : w.procs p = some q := hq
    have hmem : (p, i) ∈ w.mappers x.shm :=
      mem_mappers.mpr ⟨x, by simpa [Memory.mapping, hq] using hx, rfl⟩
    simp only [update_apply]
    split_ifs with ho
    · rw [ho] at hmem hsh
      have hsame := hframes.resolve_left (ne_empty_of_mem hmem)
      rw [hsh] at hsame
      exact map_eq_some_iff.mp hsame
    · exact ⟨sh, hsh, rfl⟩
  refs o' sh hsh := by
    simp only [update_apply] at hsh ⊢
    split_ifs at hsh ⊢ with ho
    · exact ho ▸ hrefs sh hsh
    · exact h.refs o' sh hsh
  handles o' hnone := by
    simp only [update_apply] at hnone ⊢
    split_ifs at hnone ⊢
    · exact hhandles hnone
    · exact h.handles o' hnone

omit [DecidableEq ι] in
/-- Nobody maps an object that does not exist. -/
lemma Sound.mappers_eq_empty (h : Sound m₀ w) (ho : w.shms o = none) : w.mappers o = ∅ := by
  by_contra hne
  obtain ⟨c, hc⟩ := nonempty_iff_ne_empty.mpr hne
  exact h.shm_of_mapper hc ho

/-- `shm_create` takes its frames, or gives back those it took. -/
theorem Sound.shmCreate (h : Sound m₀ w) (bytes : ℕ) (heapOk : Bool)
    (ho : (MemOp.shmCreate (ι := ι) o bytes heapOk).Allowed w) :
    Good m₀ ((MemOp.shmCreate (ι := ι) o bytes heapOk).exec w) := by
  have ho : w.shms o = none := ho
  have hnobody := h.mappers_eq_empty ho
  simp only [MemOp.exec, Mm.shmCreate]
  split_ifs with hargs
  · exact h.setPmm h.books
  -- At first the object has no frames.
  have hbooks := h.books
  rw [Memory.holds, ← slots_shm_congr (o := o) (c := some ⟨1, []⟩) (by simp [ho])] at hbooks
  obtain ⟨frames, m', htake, hbooks'⟩ :=
    takeFrames_spec ((bytes + (pageSize - 1)) / pageSize) [] hbooks
  simp only [htake]
  cases frames with
  | none =>
    rw [map_none, slots_shm_congr (by simp [ho])] at hbooks'
    exact h.setPmm hbooks'
  | some frames =>
    refine h.setShm hbooks' (Or.inl hnobody) (fun sh hsh => ?_) (by simp)
    cases hsh
    simp [hnobody]

omit [DecidableEq ι] in
/-- References to an object come and go. -/
lemma Sound.setRefs (h : Sound m₀ w) (hsh : w.shms o = some sh) {refs : ℕ}
    (hrefs : refs = handles + (w.mappers o).card) :
    Sound m₀ { w with
      shms := update w.shms o (some { sh with refs })
      handles := update w.handles o handles } := by
  refine h.setShm ?_ (Or.inr ?_) (fun sh' hsh' => ?_) (by simp)
  · rw [slots_shm_congr (by simp [hsh])]
    exact h.books
  · rw [hsh]
    rfl
  · cases hsh'
    exact hrefs

theorem Sound.shmRef (h : Sound m₀ w) (ho : (MemOp.shmRef (ι := ι) o).Allowed w) :
    Good m₀ ((MemOp.shmRef (ι := ι) o).exec w) := by
  obtain ⟨sh, hsh⟩ := ne_none_iff_exists'.mp (show w.shms o ≠ none from ho)
  simp only [MemOp.exec, Mm.shmRef, hsh, map_some]
  refine h.setRefs hsh ?_
  rw [h.refs o sh hsh]
  omega

/-- `shm_unref` frees the frames with the last reference. -/
theorem Sound.shmUnref (h : Sound m₀ w) (ho : (MemOp.shmUnref (ι := ι) o).Allowed w) :
    Good m₀ ((MemOp.shmUnref (ι := ι) o).exec w) := by
  have ho : 0 < w.handles o := ho
  have hne : w.shms o ≠ none := fun hnone => by simp [h.handles o hnone] at ho
  obtain ⟨sh, hsh⟩ := ne_none_iff_exists'.mp hne
  have hrefs := h.refs o sh hsh
  simp only [MemOp.exec, Mm.shmUnref, hsh]
  split_ifs with hmore
  · refine h.setRefs hsh ?_
    omega
  -- This was the last reference, so nobody maps the object.
  have hnobody : w.mappers o = ∅ := card_eq_zero.mp (by omega)
  obtain ⟨m', hfree, hbooks⟩ := Books.giveShm h.books hsh
  simp only [hfree]
  refine h.setShm hbooks (Or.inl hnobody) (by simp) fun _ => ?_
  omega

/-! ## Mappings -/

/-- A process takes over a handle for a mapping, or gives it back. The object stays as it is. -/
lemma Sound.setMaps (h : Sound m₀ w) (hq : w.procs p = some q) {q' : ProcMem}
    (hbooks : Books {f | m₀.used f = true} m₀.total m' (w.withSlots p q'.own))
    (hq' : ProcSound w.shms q')
    (hmaps : ∀ o' ≠ o, ∀ i, (∃ x, q'.maps i = some x ∧ x.shm = o') ↔
      ∃ x, q.maps i = some x ∧ x.shm = o')
    (hcard : handles + ((w.setProc p m' w.shms (some q')).mappers o).card =
      w.handles o + (w.mappers o).card) (ho : w.shms o ≠ none) :
    Sound m₀ { w.setProc p m' w.shms (some q') with handles := update w.handles o handles } := by
  refine ⟨?_, fun p' r hr => ?_, fun o' sh hsh => ?_, fun o' hnone => ?_⟩
  · have hholds := holds_setProc (w := w) (p := p) (m := m') (q := q')
    rw [← hholds] at hbooks
    exact hbooks
  · have hr : (w.setProc p m' w.shms (some q')).procs p' = some r := hr
    rw [procs_setProc] at hr
    split_ifs at hr
    · cases hr
      exact hq'
    · exact h.procs p' r hr
  · have hmappers : ({ w.setProc p m' w.shms (some q') with
        handles := update w.handles o handles } : Memory ι).mappers o' =
        (w.setProc p m' w.shms (some q')).mappers o' := rfl
    rw [hmappers, h.refs o' sh hsh]
    change _ = update w.handles o handles o' + _
    rw [update_apply]
    split_ifs with ho'
    · rw [ho', hcard]
    have hsame : (w.setProc p m' w.shms (some q')).mappers o' = w.mappers o' := by
      ext ⟨p', i⟩
      rw [mem_mappers, mem_mappers, mapping_setProc]
      split_ifs with hp
      · subst hp
        simp only [Memory.mapping, hq, bind_some]
        exact hmaps o' ho' i
      · rfl
    rw [hsame]
  · change update w.handles o handles o' = 0
    rw [update_of_ne]
    · exact h.handles o' hnone
    · rintro rfl
      exact ho hnone

variable {i : Fin shmMaxMappings}

lemma Memory.mappers_insert (hq : w.procs p = some q) (m' : Pmm) (shms : Shms) (space : Space) :
    (w.setProc p m' shms (some (q.setMap space i (some x)))).mappers x.shm =
      insert (p, i) (w.mappers x.shm) := by
  ext ⟨p', j⟩
  rw [mem_insert, mem_mappers, mem_mappers, mapping_setProc]
  by_cases hp : p' = p
  · subst hp
    by_cases hj : j = i
    · simp [hj]
    · simp [hj, Memory.mapping, hq]
  · simp [hp]

lemma Memory.mappers_erase (hq : w.procs p = some q) (m' : Pmm) (shms : Shms) (space : Space)
    (o : ℕ) :
    (w.setProc p m' shms (some (q.setMap space i none))).mappers o =
      (w.mappers o).erase (p, i) := by
  ext ⟨p', j⟩
  rw [mem_erase, mem_mappers, mem_mappers, mapping_setProc]
  by_cases hp : p' = p
  · subst hp
    by_cases hj : j = i
    · simp [hj]
    · simp [hj, Memory.mapping, hq]
  · simp [hp]

/-- The pages of a window are in the part of the space that is the process's own. -/
lemma ownEntry_of_window (hlo : userMmapBase / pageSize ≤ v) (hhi : v < userMmapTop / pageSize) :
    OwnEntry (v / 512 / 512) := by
  simp only [OwnEntry, userMmapBase, userMmapTop, deviceWindow, pageSize] at *
  omega

variable {space : Space}

lemma hide_covered_or (q : ProcMem)
    (habsent : ∀ u, base ≤ u → u < base + pages → space.leaf u = none) :
    space.hide q.Covered = space.hide fun u => q.Covered u ∨ base ≤ u ∧ u < base + pages := by
  refine Space.hide_congr fun u hu => ⟨.inl, ?_⟩
  rintro (hcovered | ⟨hlo, hhi⟩)
  · exact hcovered
  · exact absurd (habsent u hlo hhi) hu

section

variable (h : Sound m₀ w)

include h

/-- Pages of the window come and go where there were none. -/
lemma Sound.fits_edits (hq : w.procs p = some q) (hlo : userMmapBase / pageSize ≤ base)
    (hhi : base + pages ≤ userMmapTop / pageSize)
    (habsent : ∀ u, base ≤ u → u < base + pages → q.space.leaf u = none)
    (hedits : EditSteps base (base + pages) (w.pmm, q.space) (m', space)) :
    Fits {f | m₀.used f = true} m₀.total w p
      (fun u => q.Covered u ∨ base ≤ u ∧ u < base + pages) (m', space) := by
  have hstart := h.fits hq
  have hhide := hide_covered_or q habsent
  refine Fits.edits (a := (w.pmm, q.space)) ⟨hhide ▸ hstart.books, hstart.own⟩
    (fun u hu hu' => ⟨.inr ⟨hu, hu'⟩, ?_⟩) hedits
  exact ownEntry_of_window (hlo.trans hu) (hu'.trans_le hhi)

/-- A handle becomes a mapping. -/
theorem Sound.toMapping (hq : w.procs p = some q) (hsh : w.shms o = some sh)
    (hnone : q.maps i = none) (hlo : userMmapBase / pageSize ≤ base)
    (hhi : base + sh.frames.length ≤ userMmapTop / pageSize)
    (habsent : ∀ u, base ≤ u → u < base + sh.frames.length → q.space.leaf u = none)
    (hedits : EditSteps base (base + sh.frames.length) (w.pmm, q.space) (m', space))
    (hleaf : ∀ u, space.leaf u = if base ≤ u ∧ u < base + sh.frames.length then
      (sh.frames[u - base]?).map fun f => ⟨f, userWrite⟩ else q.space.leaf u)
    (hhandles : 0 < w.handles o) :
    Sound m₀ { w.setProc p m' w.shms (some (q.setMap space i (some ⟨o, base, sh.frames.length⟩))) with
      handles := update w.handles o (w.handles o - 1) } := by
  have hfits := h.fits_edits hq hlo hhi habsent hedits
  refine h.setMaps hq ?_ ?_ (fun o' ho' j => ?_) ?_ (by simp [hsh])
  · have hhide : space.hide (q.setMap space i (some ⟨o, base, sh.frames.length⟩)).Covered =
        space.hide fun u => q.Covered u ∨ base ≤ u ∧ u < base + sh.frames.length :=
      Space.hide_congr fun u _ => ProcSound.covered_add hnone space _
    rw [ProcMem.own, hhide]
    exact hfits.books
  · exact (h.procs p q hq).addMapping hsh hlo hhi habsent hfits.own hleaf
  · by_cases hj : j = i
    · simp [hj, hnone, Ne.symm ho']
    · simp [hj]
  · have hnew : (p, i) ∉ w.mappers o := by
      rw [mem_mappers]
      rintro ⟨x, hx, -⟩
      simp [Memory.mapping, hq, hnone] at hx
    have hmappers := mappers_insert hq m' w.shms (i := i) (x := ⟨o, base, sh.frames.length⟩)
      space
    rw [hmappers, card_insert_of_notMem hnew]
    omega

/-- A mapping becomes a handle. -/
theorem Sound.toHandle (hq : w.procs p = some q) (hx : q.maps i = some x)
    (hedits : EditSteps x.base (x.base + x.pages) (w.pmm, q.space) (m', space))
    (hleaf : ∀ u, space.leaf u = if x.Covers u then none else q.space.leaf u) :
    Sound m₀ { w.setProc p m' w.shms (some (q.setMap space i none)) with
      handles := update w.handles x.shm (w.handles x.shm + 1) } := by
  have hproc := h.procs p q hq
  have hfits := (h.fits hq).edits (fun u hu hu' =>
    have hcovered : q.Covered u := ⟨i, x, hx, hu, hu'⟩
    ⟨hcovered, hproc.ownEntry_covered hcovered⟩) hedits
  have hmem : (p, i) ∈ w.mappers x.shm :=
    mem_mappers.mpr ⟨x, by simpa [Memory.mapping, hq] using hx, rfl⟩
  refine h.setMaps hq ?_ ?_ (fun o' ho' j => ?_) ?_ (h.shm_of_mapper hmem)
  · have hhide : space.hide (q.setMap space i none).Covered = space.hide q.Covered := by
      refine Space.hide_congr fun u hu => ?_
      rw [hproc.covered_remove hx]
      refine ⟨And.left, fun hcovered => ⟨hcovered, fun hu' => hu ?_⟩⟩
      rw [hleaf, if_pos hu']
    rw [ProcMem.own, hhide]
    exact hfits.books
  · exact hproc.removeMapping hx hfits.own hleaf
  · by_cases hj : j = i
    · subst hj
      simp [hx, Ne.symm ho']
    · simp [hj]
  · rw [mappers_erase hq, card_erase_of_mem hmem]
    have hpos := card_pos.mpr ⟨_, hmem⟩
    omega

/-- `shm_map` takes tables for its pages, and maps all of them or none. -/
theorem Sound.shmMap (o : ℕ) (hp : (MemOp.shmMap p o).Allowed w) :
    Good m₀ ((MemOp.shmMap p o).exec w) := by
  obtain ⟨q, hq⟩ := ne_none_iff_exists'.mp (show w.procs p ≠ none from hp)
  simp only [MemOp.exec, hq]
  rcases shmMap_spec w.pmm w.shms q o with ⟨u, hmap, -⟩ | ⟨r, m', shms', q', hmap, hmapped⟩
  · rw [hmap]
    exact ⟨u, rfl⟩
  rw [hmap]
  cases hmapped with
  | refused => exact h.setSpace hq (h.fits hq) fun _ _ => rfl
  | @undone m' space base pages hlo hhi habsent hedits hleaf =>
    have hfits := h.fits_edits hq hlo hhi habsent hedits
    have hhide := hide_covered_or q fun u hu hu' =>
      (congrFun hleaf u).trans (habsent u hu hu')
    exact h.setSpace hq ⟨hhide ▸ hfits.books, hfits.own⟩ fun u _ => congrFun hleaf u
  | @done m' space sh i base hsh hnone hlo hhi habsent hedits hleaf =>
    -- The new reference is at first a handle.
    have hrefs : sh.refs + 1 = w.handles o + 1 + (w.mappers o).card := by
      rw [h.refs o sh hsh]
      omega
    have hsound := (h.setRefs hsh hrefs).toMapping hq (update_self ..) hnone hlo hhi
      habsent hedits hleaf (by simp)
    simp only [Memory.setProc, update_self, Nat.add_sub_cancel, update_idem,
      update_eq_self] at hsound
    simp only [Good, Memory.setProc, Mm.shmRef, hsh, map_some]
    exact hsound

theorem Sound.shmUnmap (addr : ℕ) (hp : (MemOp.shmUnmap p addr).Allowed w) :
    Good m₀ ((MemOp.shmUnmap p addr).exec w) := by
  obtain ⟨q, hq⟩ := ne_none_iff_exists'.mp (show w.procs p ≠ none from hp)
  simp only [MemOp.exec, hq]
  rcases shmUnmap_cases w.pmm w.shms q addr with
    ⟨-, hunmap⟩ | ⟨i, x, space, hx, -, hedits, hleaf, hunmap⟩
  · rw [hunmap]
    exact h.setSpace hq (h.fits hq) fun _ _ => rfl
  rw [hunmap]
  -- The reference of the mapping is given back like a handle.
  have hunref := (h.toHandle hq hx hedits hleaf).shmUnref (o := x.shm) (by simp [MemOp.Allowed])
  simp only [MemOp.exec, Memory.setProc, update_self, Nat.add_sub_cancel,
    update_idem, update_eq_self] at hunref ⊢
  cases hfree : Mm.shmUnref w.pmm w.shms x.shm with
  | error e | ok r => simpa only [hfree] using hunref

end

omit [Fintype ι] in
lemma Memory.setProc_setProc (m m' : Pmm) (shms shms' : Shms) (q q' : Option ProcMem) :
    (w.setProc p m shms q).setProc p m' shms' q' = w.setProc p m' shms' q' := by
  simp [Memory.setProc]

/-- A process that exits gives up its mappings one by one. -/
lemma Sound.unmapSlots (h : Sound m₀ w) (hq : w.procs p = some q)
    (l : List (Fin shmMaxMappings)) :
    Good m₀ (match Mm.unmapSlots l w.pmm w.shms q with
      | .error e => .error e
      | .ok (m, shms, q) => .ok (w.setProc p m shms (some q))) := by
  induction l generalizing w q with
  | nil => exact h.setSpace hq (h.fits hq) fun _ _ => rfl
  | cons i l ih =>
    cases hx : q.maps i with
    | none =>
      simp only [Mm.unmapSlots, hx]
      exact ih h hq
    | some x =>
      have hunmap := h.shmUnmap (p := p) (x.base * pageSize) (by simp [MemOp.Allowed, hq])
      simp only [MemOp.exec, hq] at hunmap
      simp only [Mm.unmapSlots, hx]
      cases hone : Mm.shmUnmap w.pmm w.shms q (x.base * pageSize) with
      | error e => simpa only [hone] using hunmap
      | ok r =>
        simp only [hone] at hunmap ⊢
        have hrest := ih hunmap (update_self ..)
        simp only [setProc_setProc] at hrest
        exact hrest

theorem Sound.shmUnmapAll (h : Sound m₀ w) (hp : (MemOp.shmUnmapAll p).Allowed w) :
    Good m₀ ((MemOp.shmUnmapAll p).exec w) := by
  obtain ⟨q, hq⟩ := ne_none_iff_exists'.mp (show w.procs p ≠ none from hp)
  simp only [MemOp.exec, hq, Mm.shmUnmapAll]
  exact h.unmapSlots hq _

end Wos.Mm
