import Wos.Mm.Owners

/-!
# The invariant of the memory machine

Frames and owners agree; the pages of every mapping are on the frames of its object, which exists; and
an object is referred to as often as there are handles to it and mappings of it.

## Main definitions

* `ProcSound`: one process is in order;
* `Memory.mappers`: where an object is mapped;
* `Sound`, `Good`: the invariant, and a call that keeps it.

## Main results

* `ProcSound.addMapping`, `ProcSound.removeMapping`: mapping and unmapping an object;
* `Sound.setSpace`, `Sound.setFiles`, `Sound.setPmm`: changes that leave mappings alone.
-/

namespace Wos.Mm

open Function Memory

variable {ι : Type*}

/-! ## The invariant -/

/-- A process is in order: its upper table has only its own entries, and its mappings lie in the window,
do not overlap, and have their pages on the frames of their objects. -/
structure ProcSound (shms : Shms) (q : ProcMem) : Prop where
  own : q.space.Own
  window (i : Fin shmMaxMappings) (x : Mapping) : q.maps i = some x →
    userMmapBase / pageSize ≤ x.base ∧ x.base + x.pages ≤ userMmapTop / pageSize
  disjoint (i j : Fin shmMaxMappings) (x y : Mapping) (v : ℕ) :
    q.maps i = some x → q.maps j = some y → x.Covers v → y.Covers v → i = j
  mapped (i : Fin shmMaxMappings) (x : Mapping) : q.maps i = some x →
    ∃ sh, shms x.shm = some sh ∧ x.pages = sh.frames.length ∧
      ∀ v, x.Covers v → q.space.leaf v = (sh.frames[v - x.base]?).map fun f => ⟨f, userWrite⟩

/-- A mapping of a process. -/
def Memory.mapping (w : Memory ι) (p : ι) (i : Fin shmMaxMappings) : Option Mapping :=
  (w.procs p).bind fun q => q.maps i

/-- The places at which an object is mapped. -/
def Memory.mappers [Fintype ι] (w : Memory ι) (o : ℕ) : Finset (ι × Fin shmMaxMappings) :=
  Finset.univ.filter fun c => ∃ x ∈ w.mapping c.1 c.2, x.shm = o

/-- The invariant of the machine, for the frames `m₀` it started with. The references to an object are
the handles and the mappings. -/
structure Sound [Fintype ι] (m₀ : Pmm) (w : Memory ι) : Prop where
  books : Books {f | m₀.used f = true} m₀.total w.pmm w.holds
  procs (p : ι) (q : ProcMem) : w.procs p = some q → ProcSound w.shms q
  refs (o : ℕ) (sh : Shm) : w.shms o = some sh → sh.refs = w.handles o + (w.mappers o).card
  handles (o : ℕ) : w.shms o = none → w.handles o = 0

/-- A call that keeps the invariant, or panics because a page is present. -/
def Good [Fintype ι] (m₀ : Pmm) : Except Panic (Memory ι) → Prop
  | .error e => ∃ v, e = .alreadyMapped v
  | .ok w => Sound m₀ w

/-! ## One process -/

/-- A process with another space and another mapping at one place. -/
abbrev ProcMem.setMap (q : ProcMem) (space : Space) (i : Fin shmMaxMappings) (x : Option Mapping) :
    ProcMem :=
  { q with space, maps := Function.update q.maps i x }

variable {space : Space} {o : ℕ}

namespace ProcSound

variable {shms shms' : Shms} {q : ProcMem} {v : ℕ}

section

variable (h : ProcSound shms q)

include h

/-- A page of a mapping is present. -/
lemma leaf_covered (hv : q.Covered v) : q.space.leaf v ≠ none := by
  obtain ⟨i, x, hx, hcovers⟩ := hv
  obtain ⟨sh, -, hpages, hleaf⟩ := h.mapped i x hx
  have hlt : v - x.base < sh.frames.length := by
    have hlo := hcovers.1
    have hhi := hcovers.2
    omega
  rw [hleaf v hcovers]
  simp [hlt]

/-- It is in the part of the space that is the process's own. -/
lemma ownEntry_covered (hv : q.Covered v) : OwnEntry (v / 512 / 512) := by
  obtain ⟨i, x, hx, hlo, hhi⟩ := hv
  obtain ⟨hbase, htop⟩ := h.window i x hx
  simp only [OwnEntry, userMmapBase, userMmapTop, deviceWindow, pageSize] at *
  omega

/-- Pages that are in no mapping come and go. -/
lemma setSpace (hown : space.Own) (hleaf : ∀ v, q.Covered v → space.leaf v = q.space.leaf v) :
    ProcSound shms { q with space } where
  __ := h
  own := hown
  mapped i x hx := by
    obtain ⟨sh, hsh, hpages, hpage⟩ := h.mapped i x hx
    exact ⟨sh, hsh, hpages, fun v hv => (hleaf v ⟨i, x, hx, hv⟩).trans (hpage v hv)⟩

/-- Of the objects, only the frames of those that are mapped matter. -/
lemma setShms
    (hframes : ∀ i x sh, q.maps i = some x → shms x.shm = some sh →
      ∃ sh', shms' x.shm = some sh' ∧ sh'.frames = sh.frames) : ProcSound shms' q where
  __ := h
  mapped i x hx := by
    obtain ⟨sh, hsh, hpages, hpage⟩ := h.mapped i x hx
    obtain ⟨sh', hsh', heq⟩ := hframes i x sh hx hsh
    exact ⟨sh', hsh', heq ▸ hpages, heq ▸ hpage⟩

end

variable {i : Fin shmMaxMappings}

/-- A mapping of one slot. -/
lemma maps_update {maps : Maps} {j : Fin shmMaxMappings} {x : Option Mapping} {y : Mapping}
    (h : update maps i x j = some y) : j = i ∧ x = some y ∨ j ≠ i ∧ maps j = some y := by
  rw [update_apply] at h
  split_ifs at h with hj
  · exact .inl ⟨hj, h⟩
  · exact .inr ⟨hj, h⟩

lemma covered_add (hnone : q.maps i = none) (space : Space)
    (x : Mapping) : (q.setMap space i (some x)).Covered v ↔ q.Covered v ∨ x.Covers v := by
  constructor
  · rintro ⟨j, y, hy, hv⟩
    rcases maps_update hy with ⟨-, hx⟩ | ⟨-, hy⟩
    · exact .inr (Option.some.inj hx ▸ hv)
    · exact .inl ⟨j, y, hy, hv⟩
  · rintro (⟨j, y, hy, hv⟩ | hv)
    · have hj : j ≠ i := by
        rintro rfl
        simp [hnone] at hy
      exact ⟨j, y, (update_of_ne hj ..).trans hy, hv⟩
    · exact ⟨i, x, update_self .., hv⟩

lemma covered_remove (h : ProcSound shms q) {x : Mapping} (hx : q.maps i = some x)
    (space : Space) :
    (q.setMap space i none).Covered v ↔ q.Covered v ∧ ¬ x.Covers v := by
  constructor
  · rintro ⟨j, y, hy, hv⟩
    rcases maps_update hy with ⟨-, hnone⟩ | ⟨hj, hy⟩
    · cases hnone
    · exact ⟨⟨j, y, hy, hv⟩, fun hv' => hj (h.disjoint j i y x v hy hx hv hv')⟩
  · rintro ⟨⟨j, y, hy, hv⟩, hnot⟩
    have hj : j ≠ i := by
      rintro rfl
      rw [Option.mem_def, hx] at hy
      exact hnot (Option.some.inj hy ▸ hv)
    exact ⟨j, y, (update_of_ne hj ..).trans hy, hv⟩

/-- An object is mapped where there was nothing. -/
lemma addMapping (h : ProcSound shms q) {base : ℕ} {sh : Shm} (hsh : shms o = some sh)
    (hlo : userMmapBase / pageSize ≤ base) (hhi : base + sh.frames.length ≤ userMmapTop / pageSize)
    (habsent : ∀ u, base ≤ u → u < base + sh.frames.length → q.space.leaf u = none)
    (hown : space.Own) (hleaf : ∀ u, space.leaf u = if base ≤ u ∧ u < base + sh.frames.length then
      (sh.frames[u - base]?).map fun f => ⟨f, userWrite⟩ else q.space.leaf u) :
    ProcSound shms (q.setMap space i (some ⟨o, base, sh.frames.length⟩)) := by
  -- The other mappings are elsewhere, since their pages are present.
  have helse : ∀ {j y u}, q.maps j = some y → y.Covers u →
      ¬ (base ≤ u ∧ u < base + sh.frames.length) := fun hy hu hin =>
    h.leaf_covered ⟨_, _, hy, hu⟩ (habsent _ hin.1 hin.2)
  refine ⟨hown, fun j y hy => ?_, fun j k y z u hy hz hu hu' => ?_, fun j y hy => ?_⟩
  · rcases maps_update hy with ⟨-, hx⟩ | ⟨-, hy⟩
    · cases hx
      exact ⟨hlo, hhi⟩
    · exact h.window j y hy
  · rcases maps_update hy with ⟨hj, hx⟩ | ⟨-, hy⟩
    · rcases maps_update hz with ⟨hk, -⟩ | ⟨-, hz⟩
      · rw [hj, hk]
      · cases hx
        exact absurd hu (helse hz hu')
    · rcases maps_update hz with ⟨-, hx⟩ | ⟨-, hz⟩
      · cases hx
        exact absurd hu' (helse hy hu)
      · exact h.disjoint j k y z u hy hz hu hu'
  · rcases maps_update hy with ⟨-, hx⟩ | ⟨-, hy⟩
    · cases hx
      exact ⟨sh, hsh, rfl, fun u hu => (hleaf u).trans (if_pos hu)⟩
    · obtain ⟨sh', hsh', hpages, hpage⟩ := h.mapped j y hy
      exact ⟨sh', hsh', hpages, fun u hu =>
        (hleaf u).trans ((if_neg (helse hy hu)).trans (hpage u hu))⟩

/-- A mapping is taken out with its pages. -/
lemma removeMapping (h : ProcSound shms q) {x : Mapping} (hx : q.maps i = some x)
    (hown : space.Own) (hleaf : ∀ u, space.leaf u = if x.Covers u then none else q.space.leaf u) :
    ProcSound shms (q.setMap space i none) := by
  have hold : ∀ {j y}, update q.maps i none j = some y → j ≠ i ∧ q.maps j = some y := by
    intro j y hy
    rcases maps_update hy with ⟨-, hnone⟩ | hy
    · cases hnone
    · exact hy
  refine ⟨hown, fun j y hy => h.window j y (hold hy).2, fun j k y z u hy hz =>
    h.disjoint j k y z u (hold hy).2 (hold hz).2, fun j y hy => ?_⟩
  obtain ⟨hj, hy⟩ := hold hy
  obtain ⟨sh, hsh, hpages, hpage⟩ := h.mapped j y hy
  refine ⟨sh, hsh, hpages, fun u hu => ?_⟩
  rw [hleaf, if_neg]
  · exact hpage u hu
  · exact fun hu' => hj (h.disjoint j i y x u hy hx hu hu')

end ProcSound

variable [Fintype ι] {m₀ : Pmm} {w : Memory ι} {p : ι} {q : ProcMem} {v : ℕ}

lemma Memory.mem_mappers {c : ι × Fin shmMaxMappings} :
    c ∈ w.mappers o ↔ ∃ x, w.mapping c.1 c.2 = some x ∧ x.shm = o := by
  simp [Memory.mappers]

/-- An object that is mapped exists. -/
lemma Sound.shm_of_mapper (h : Sound m₀ w) {c : ι × Fin shmMaxMappings}
    (hc : c ∈ w.mappers o) : w.shms o ≠ none := by
  obtain ⟨x, hmapping, rfl⟩ := mem_mappers.mp hc
  obtain ⟨q, hq, hx⟩ := Option.bind_eq_some_iff.mp hmapping
  obtain ⟨sh, hsh, -⟩ := (h.procs _ q hq).mapped _ x hx
  simp [hsh]

variable [DecidableEq ι]

omit [Fintype ι] in
lemma Memory.procs_setProc (m : Pmm) (shms : Shms) (q : Option ProcMem) (p' : ι) :
    (w.setProc p m shms q).procs p' = if p' = p then q else w.procs p' :=
  update_apply ..

omit [Fintype ι] in
lemma Memory.mapping_setProc (m : Pmm) (shms : Shms) (q : Option ProcMem) (p' : ι)
    (i : Fin shmMaxMappings) : (w.setProc p m shms q).mapping p' i =
      if p' = p then q.bind fun q => q.maps i else w.mapping p' i := by
  rw [Memory.mapping, procs_setProc]
  split_ifs <;> rfl

lemma Memory.mappers_setProc (m : Pmm) (shms : Shms) {q : Option ProcMem}
    (hmaps : ∀ i, (q.bind fun q => q.maps i) = w.mapping p i) (o : ℕ) :
    (w.setProc p m shms q).mappers o = w.mappers o := by
  ext ⟨p', i⟩
  rw [mem_mappers, mem_mappers, mapping_setProc]
  split_ifs with hp
  · subst hp
    rw [hmaps]
  · rfl

lemma Sound.fits (h : Sound m₀ w) (hq : w.procs p = some q) :
    Fits {f | m₀.used f = true} m₀.total w p q.Covered (w.pmm, q.space) := by
  refine ⟨?_, (h.procs p q hq).own⟩
  have hslots : w.withSlots p (q.space.hide q.Covered) = w.holds := by
    rw [← w.withSlots_priv (p := p), priv_of_some hq]
    rfl
  rw [hslots]
  exact h.books

/-! ## Changes that leave mappings alone -/

variable {m' : Pmm}

/-- Pages of a process's own come and go. -/
theorem Sound.setSpace (h : Sound m₀ w) (hq : w.procs p = some q)
    (hfits : Fits {f | m₀.used f = true} m₀.total w p q.Covered (m', space))
    (hleaf : ∀ v, q.Covered v → space.leaf v = q.space.leaf v) :
    Sound m₀ (w.setProc p m' w.shms (some { q with space })) where
  books := by
    rw [holds_setProc]
    exact hfits.books
  procs p' q' hq' := by
    rw [procs_setProc] at hq'
    split_ifs at hq' with hp
    · cases hq'
      exact (h.procs p q hq).setSpace hfits.own hleaf
    · exact h.procs p' q' hq'
  refs o sh hsh := by
    rw [mappers_setProc m' w.shms (by simp [Memory.mapping, hq])]
    exact h.refs o sh hsh
  handles := h.handles

omit [DecidableEq ι] in
/-- Calls that leave processes and objects alone. -/
theorem Sound.setFiles (h : Sound m₀ w) {files : ℕ → Blocks}
    (hbooks : Books {f | m₀.used f = true} m₀.total m' (slots w.priv w.shms files)) :
    Sound m₀ { w with pmm := m', files } :=
  ⟨hbooks, h.procs, h.refs, h.handles⟩

omit [DecidableEq ι] in
/-- Frames may have been taken and given back. -/
theorem Sound.setPmm (h : Sound m₀ w)
    (hbooks : Books {f | m₀.used f = true} m₀.total m' w.holds) :
    Sound m₀ { w with pmm := m' } :=
  h.setFiles hbooks

end Wos.Mm
