import Mathlib.Data.Fintype.Prod
import Wos.Base.Owner
import Wos.Mm.Memory

/-!
# The owners of frames

The owners of the machine of `Wos.Mm.Memory`: the tables and pages of the spaces, the shared objects, and
the blocks of the files. A page that belongs to a mapping is not owned by the space it is in.

`Books` is the rule of one owner for the frames of the machine, and `Fits` is the rule while one space is
under change, when the pages that are being mapped or unmapped are left out.

## Main definitions

* `Owner`, `Memory.holds`: the owners, and the frame each of them has;
* `Books`, `Fits`: frames and owners agree.

## Main results

* `Books.give`: frames that are held can be freed without a panic;
* `Fits.edits`, `Fits.mapped`: what `paging_map`, `paging_unmap_keep` and `paging_map_alloc` do;
* `frames_eq`, `nodup_ownSlots`, `mem_ownSlots_of_holds`: `paging_free_addrspace` comes to every slot
  of a space once.
-/

namespace Wos.Mm

open Function List Space

/-! ## Owners -/

/-- What can own a frame. -/
inductive Owner (ι : Type*)
  | space (p : ι) (σ : Slot)
  | shm (o k : ℕ)
  | file (n i : ℕ)
  deriving DecidableEq

/-- The frames a space names, except at the pages `E`. -/
def Space.hide (s : Space) (E : ℕ → Prop) [DecidablePred E] : Slot → Option ℕ
  | .page v => if E v then none else s.holds (.page v)
  | σ => s.holds σ

/-- The frames that are a process's own. -/
def ProcMem.own (q : ProcMem) : Slot → Option ℕ := q.space.hide q.Covered

/-- The frames of all owners, where `priv` says what is each process's own. -/
def slots {ι : Type*} (priv : ι → Slot → Option ℕ) (shms : Shms) (files : ℕ → Blocks) :
    Owner ι → Option ℕ
  | .space p σ => priv p σ
  | .shm o k => (shms o).bind fun sh => sh.frames[k]?
  | .file n i => blockAt (files n) i

variable {ι : Type*}

/-- What is a process's own. -/
def Memory.priv (w : Memory ι) (p : ι) : Slot → Option ℕ :=
  (w.procs p).elim (fun _ => none) ProcMem.own

/-- The frame an owner has. -/
def Memory.holds (w : Memory ι) : Owner ι → Option ℕ := slots w.priv w.shms w.files

variable [DecidableEq ι]

/-- The frames of all owners when those of a process are as given. -/
def Memory.withSlots (w : Memory ι) (p : ι) (g : Slot → Option ℕ) : Owner ι → Option ℕ :=
  slots (Function.update w.priv p g) w.shms w.files

section Slots

variable {w : Memory ι} {p : ι} {q : ProcMem} {m : Pmm} {g : Slot → Option ℕ} {σ : Slot}
  {s : Space} {E : ℕ → Prop} [DecidablePred E] {v : ℕ}

lemma Memory.withSlots_update (x : Option ℕ) :
    w.withSlots p (update g σ x) = update (w.withSlots p g) (.space p σ) x := by
  funext y
  cases y with
  | space p' σ' =>
    simp only [withSlots, slots, update_apply, Owner.space.injEq]
    by_cases hp : p' = p
    · simp [hp, update_apply]
    · simp [hp]
  | shm o k => simp [withSlots, slots]
  | file n i => simp [withSlots, slots]

lemma Memory.withSlots_priv : w.withSlots p (w.priv p) = w.holds := by
  rw [withSlots, update_eq_self]
  rfl

lemma Memory.priv_setProc (shms : Shms) (q : Option ProcMem) :
    (w.setProc p m shms q).priv = update w.priv p (q.elim (fun _ => none) ProcMem.own) := by
  funext p'
  simp only [priv, setProc, update_apply]
  split_ifs <;> rfl

lemma Memory.holds_setProc : (w.setProc p m w.shms (some q)).holds = w.withSlots p q.own := by
  rw [holds, priv_setProc]
  rfl

omit [DecidableEq ι] in
lemma Memory.priv_of_some (h : w.procs p = some q) : w.priv p = q.own := by
  simp [priv, h]

/-- A table that is added is not hidden. -/
lemma Space.hide_update_table {s' : Space} {x : Option ℕ} (hσ : ∀ v, σ ≠ .page v)
    (h : s'.holds = update s.holds σ x) :
    s'.hide E = update (s.hide E) σ x := by
  funext τ
  cases τ with
  | page v =>
    simp only [hide, h, update_of_ne (hσ v).symm]
  | pml4 | pdpt | pd i | pt u => simp [hide, h, update_apply]

/-- Neither is a page, unless it is one of those that are. -/
lemma Space.hide_update_page {s' : Space} {x : Option ℕ}
    (h : s'.holds = update s.holds (.page v) x) :
    s'.hide E = if E v then s.hide E else update (s.hide E) (.page v) x := by
  funext τ
  cases τ with
  | page u =>
    by_cases hu : u = v
    · subst hu
      by_cases hE : E u <;> simp [hide, hE, h]
    · have hne : Slot.page u ≠ Slot.page v := by simpa using hu
      by_cases hE : E v <;> simp [hide, hE, h, hne]
  | pml4 | pdpt | pd i | pt u => by_cases hE : E v <;> simp [hide, hE, h]

/-- Whether pages that are absent are hidden does not matter. -/
lemma Space.hide_congr {E' : ℕ → Prop} [DecidablePred E']
    (h : ∀ v, s.leaf v ≠ none → (E v ↔ E' v)) : s.hide E = s.hide E' := by
  funext τ
  cases τ with
  | page v =>
    cases hleaf : s.leaf v with
    | none => simp [hide, holds, hleaf]
    | some e => simp only [hide, h v (by simp [hleaf])]
  | _ => rfl

end Slots

/-! ## Frames and owners -/

/-- The bitmap, its count and the owners agree, with the frames `kept` aside. -/
structure Books {X : Type*} (kept : Set ℕ) (total : ℕ) (m : Pmm) (H : X → Option ℕ) :
    Prop where
  /-- A frame in use is kept or has one owner, and only such frames are in use. -/
  owned : Owned m.used kept H
  /-- Owned frames exist. -/
  lt (x : X) (f : ℕ) : H x = some f → f < m.total
  /-- The count of the allocator is right. -/
  counted : m.Counted
  /-- Frame 0, which stands for failure, is kept. -/
  zero : 0 ∈ kept
  /-- The number of frames never changes. -/
  total_eq : m.total = total

namespace Books

variable {X : Type*} {kept : Set ℕ} {total : ℕ} {m m' : Pmm} {H G : X → Option ℕ} {f : ℕ}

section

variable (h : Books kept total m H)

include h

/-- Frame 0 is used, so the allocator never comes across it. -/
lemma not_took_zero : ¬ m.Took 0 m' := by
  intro htook
  simpa [htook.free] using h.owned.used_of_kept h.zero

lemma notMem_of_took (htook : m.Took f m') : f ∉ kept := by
  intro hf
  simpa [htook.free] using h.owned.used_of_kept hf

lemma took (htook : m.Took f m') :
    Books (insert f kept) total m' H where
  owned := htook.used ▸ h.owned.take htook.free
  lt x g hx := htook.total.symm ▸ h.lt x g hx
  counted := htook.counted h.counted
  zero := Set.mem_insert_of_mem _ h.zero
  total_eq := htook.total.trans h.total_eq

end

section

variable (h : Books (insert f kept) total m H) (hf : f ∉ kept) (hzero : 0 ∈ kept)
  (hlt : f < m.total)

include h hf hzero hlt

lemma place [DecidableEq X] {x : X} (hx : H x = none) :
    Books kept total m (update H x (some f)) where
  owned := h.owned.place hf hx
  lt y g hy := by
    rw [update_apply] at hy
    split_ifs at hy
    · exact Option.some.inj hy ▸ hlt
    · exact h.lt y g hy
  counted := h.counted
  zero := hzero
  total_eq := h.total_eq

lemma drop (hgave : m.Gave [f] m') : Books kept total m' H where
  owned := h.owned.drop hf fun r => by rw [hgave.used, mem_singleton]
  lt x g hx := hgave.total.symm ▸ h.lt x g hx
  counted := hgave.counted h.counted (by simp) fun g hg => by
    rw [mem_singleton] at hg
    subst hg
    exact ⟨hlt, h.owned.used_of_kept (Set.mem_insert _ _)⟩
  zero := hzero
  total_eq := hgave.total.trans h.total_eq

end

/-- Frames that are held, each named once, can be given back. -/
lemma give (h : Books kept total m H) {D : X → Prop} {fs : List ℕ} (hnodup : fs.Nodup)
    (hfs : ∀ r, r ∈ fs ↔ ∃ x, D x ∧ H x = some r) (hgone : ∀ x, D x → G x = none)
    (hleft : ∀ x, ¬ D x → G x = H x) :
    ∃ m', m.freeFrames fs = .ok m' ∧ m.Gave fs m' ∧ Books kept total m' G := by
  have hused : ∀ f ∈ fs, f < m.total ∧ m.used f = true := by
    intro f hf
    obtain ⟨x, -, hx⟩ := (hfs f).mp hf
    exact ⟨h.lt x f hx, h.owned.used_of_holds hx⟩
  obtain ⟨m', hfree, hgave⟩ := Pmm.freeFrames_ok hnodup hused
  have hheld : ∀ {x f}, G x = some f → ¬ D x ∧ H x = some f := by
    intro x f hx
    have hD : ¬ D x := fun hD => by simp [hgone x hD] at hx
    exact ⟨hD, hleft x hD ▸ hx⟩
  refine ⟨m', hfree, hgave, h.owned.giveAll hfs hgave.used hgone hleft, fun x f hx => ?_,
    hgave.counted h.counted hnodup hused, h.zero, hgave.total.trans h.total_eq⟩
  rw [hgave.total]
  exact h.lt x f (hheld hx).2

end Books

/-! ## Changes to one space -/

/-- The upper table of a space has only entries that are its own. -/
def Space.Own (s : Space) : Prop := ∀ i, s.holds (.pd i) ≠ none → OwnEntry i

/-- A space under change fits in: apart from its pages `E`, frames and owners agree. -/
structure Fits (kept : Set ℕ) (total : ℕ) (w : Memory ι) (p : ι) (E : ℕ → Prop)
    [DecidablePred E] (a : Pmm × Space) : Prop where
  books : Books kept total a.1 (w.withSlots p (a.2.hide E))
  own : a.2.Own

namespace Fits

variable {kept : Set ℕ} {total : ℕ} {w : Memory ι} {p : ι} {E : ℕ → Prop}
  [DecidablePred E] {a b : Pmm × Space} {u v : ℕ}

section

variable (h : Fits kept total w p E a)

include h

/-- The owners follow when page tables grow. -/
lemma grow (hu : OwnEntry (u / 512)) (hgrow : Grow u a b) : Fits kept total w p E b := by
  cases hgrow with
  | lost htook => exact absurd htook h.books.not_took_zero
  | @table m m' s s' σ f hf htook _ hnone hσ hholds _ _ =>
    have hpage : ∀ v, σ ≠ .page v := by
      rintro v rfl
      simp at hσ
    have hempty : w.withSlots p (s.hide E) (.space p σ) = none := by
      have hhide : s.hide E σ = s.holds σ := by
        cases σ with
        | page v => exact absurd rfl (hpage v)
        | _ => rfl
      simp [Memory.withSlots, slots, hhide, hnone]
    refine ⟨?_, fun i hi => ?_⟩
    · rw [hide_update_table hpage hholds, Memory.withSlots_update]
      exact (h.books.took htook).place (h.books.notMem_of_took htook) h.books.zero
        (htook.total.symm ▸ htook.lt) hempty
    rw [hholds, update_apply] at hi
    split_ifs at hi with hσi
    · rcases hσ with hσ | hσ
      · rw [hσ, Slot.pd.injEq] at hσi
        exact hσi ▸ hu
      · rw [hσ] at hσi
        cases hσi
    · exact h.own i hi

lemma grows (hu : OwnEntry (u / 512)) (hgrows : Grows u a b) : Fits kept total w p E b := by
  induction hgrows with
  | refl => exact h
  | tail _ hgrow ih => exact ih.grow hu hgrow

/-- Hidden pages come and go. -/
lemma edits {lo hi : ℕ} (hE : ∀ v, lo ≤ v → v < hi → E v ∧ OwnEntry (v / 512 / 512))
    (hedits : EditSteps lo hi a b) : Fits kept total w p E b := by
  induction hedits with
  | refl => exact h
  | @tail b c _ hstep ih =>
    obtain ⟨v, hlo, hhi, hgrow | ⟨e, n, htable, rfl⟩⟩ := hstep
    · exact ih.grow (hE v hlo hhi).2 hgrow
    generalize hs : ({ b.2.setLeaf v e with userFrames := n } : Space) = s
    have hholds : s.holds = update b.2.holds (.page v) (e.map Pte.frame) :=
      hs ▸ holds_setLeaf htable e
    refine ⟨?_, fun i hi => ih.own i ?_⟩
    · rw [hide_update_page hholds, if_pos (hE v hlo hhi).1]
      exact ih.books
    · rwa [hholds, update_of_ne (by simp)] at hi

end

/-- `paging_map_alloc` of a page that is not hidden. -/
lemma mapped {m m' : Pmm} {s s' : Space} {flags : PteFlags} {ok : Bool}
    (h : Fits kept total w p E (m, s)) (hv : OwnEntry (v / 512 / 512))
    (hok : ok = true → s.leaf v = none ∧ ¬ E v)
    (hmapped : Mapped m s v flags ok m' s') :
    Fits kept total w p E (m', s') := by
  cases hmapped with
  | noFrame hm' =>
    rcases hm' with rfl | htook
    · exact h
    · exact absurd htook h.books.not_took_zero
  | @noTable m1 m2 _ _ f hf htook hgrows hgave =>
    -- The frame is kept aside while tables are added, and given back.
    have hgrown := grows (a := (m1, s)) ⟨h.books.took htook, h.own⟩ hv hgrows
    refine ⟨hgrown.books.drop (h.books.notMem_of_took htook) h.books.zero ?_ hgave, hgrown.own⟩
    have htotal : m2.total = m1.total := hgrows.total
    rw [htotal, htook.total]
    exact htook.lt
  | @done m1 _ s1 f hf htook hgrows htable =>
    obtain ⟨hnone, hE⟩ := hok rfl
    have hgrown := grows (a := (m1, s)) ⟨h.books.took htook, h.own⟩ hv hgrows
    have htotal : m'.total = m1.total := hgrows.total
    have hholds : (s1.withPage v f flags).holds =
        update s1.holds (.page v) (some f) := holds_setLeaf htable _
    have hempty : w.withSlots p (s1.hide E) (.space p (.page v)) = none := by
      have hleaf : s1.leaf v = none := (congrFun hgrows.leaf v).trans hnone
      simp [Memory.withSlots, slots, Space.hide, Space.holds, hleaf]
    refine ⟨?_, fun i hi => hgrown.own i ?_⟩
    · rw [hide_update_page hholds, if_neg hE, Memory.withSlots_update]
      have hlt : f < m'.total := by
        rw [htotal, htook.total]
        exact htook.lt
      exact hgrown.books.place (h.books.notMem_of_took htook) h.books.zero hlt hempty
    · rwa [hholds, update_of_ne (by simp)] at hi

end Fits

/-! ## The frames of a space -/

/-- The slots of a page table, in the order in which `paging_free_addrspace` comes to them. -/
def ptSlots (u : ℕ) : List Slot :=
  ((List.range 512).map fun k => .page (512 * u + k)) ++ [.pt u]

/-- Those of a page directory. -/
def pdSlots (i : ℕ) : List Slot :=
  ((List.range 512).flatMap fun j => ptSlots (512 * i + j)) ++ [.pd i]

/-- Those of a space. -/
def ownSlots : List Slot :=
  ((List.range 512).filter fun i => i ≠ 0 ∧ i ≠ deviceWindow / pageSize / 512 / 512).flatMap
    pdSlots ++ [.pdpt, .pml4]

lemma filterMap_ptSlots (s : Space) (u : ℕ) :
    (ptSlots u).filterMap s.holds = (s.table u).elim [] Pt.frames := by
  have hleaf : ∀ k ∈ range 512, s.holds (.page (512 * u + k)) =
      (s.table u).bind fun t => (t.entry k).map Pte.frame := by
    intro k hk
    have hk := mem_range.mp hk
    have hdiv : (512 * u + k) / 512 = u := by omega
    have hmod : (512 * u + k) % 512 = k := by omega
    rw [Space.holds, Space.leaf, hdiv, hmod, Option.map_bind]
    rfl
  rw [ptSlots, filterMap_append, filterMap_map, comp_def, filterMap_congr hleaf]
  cases htable : s.table u with
  | none => simp [Space.holds, htable]
  | some t => simp [Space.holds, htable, Pt.frames]

/-- The frames of a page directory entry, by their places. -/
lemma filterMap_pdSlots (s : Space) (i : ℕ) :
    (pdSlots i).filterMap s.holds = (s.entry i).elim [] Pd.frames := by
  have htable : ∀ j ∈ range 512, (s.table (512 * i + j)).elim [] Pt.frames =
      (s.entry i).elim [] fun d => (d.entry j).elim [] Pt.frames := by
    intro j hj
    have hj := mem_range.mp hj
    have hdiv : (512 * i + j) / 512 = i := by omega
    have hmod : (512 * i + j) % 512 = j := by omega
    rw [Space.table, hdiv, hmod]
    cases s.entry i <;> rfl
  rw [pdSlots, filterMap_append, filterMap_flatMap]
  simp only [filterMap_ptSlots]
  rw [flatMap_congr htable]
  cases hentry : s.entry i with
  | none => simp [Space.holds, hentry]
  | some d => simp [Space.holds, hentry, Pd.frames]

/-- `paging_free_addrspace` frees what is held at these slots. -/
theorem frames_eq (s : Space) : s.frames = ownSlots.filterMap s.holds := by
  rw [ownSlots, filterMap_append, filterMap_flatMap]
  simp only [filterMap_pdSlots]
  rfl

lemma mem_ptSlots {u : ℕ} {σ : Slot} :
    σ ∈ ptSlots u ↔ σ = .pt u ∨ ∃ v, σ = .page v ∧ v / 512 = u := by
  simp only [ptSlots, mem_append, mem_map, mem_range, mem_singleton]
  constructor
  · rintro (⟨k, hk, rfl⟩ | rfl)
    · exact .inr ⟨_, rfl, by omega⟩
    · exact .inl rfl
  · rintro (rfl | ⟨v, rfl, rfl⟩)
    · exact .inr rfl
    · exact .inl ⟨v % 512, by omega, by rw [Nat.div_add_mod]⟩

lemma mem_pdSlots {i : ℕ} {σ : Slot} :
    σ ∈ pdSlots i ↔ σ = .pd i ∨ (∃ u, σ = .pt u ∧ u / 512 = i) ∨
      ∃ v, σ = .page v ∧ v / 512 / 512 = i := by
  simp only [pdSlots, mem_append, mem_flatMap, mem_range, mem_singleton, mem_ptSlots]
  constructor
  · rintro (⟨j, hj, rfl | ⟨v, rfl, hv⟩⟩ | rfl)
    · exact .inr (.inl ⟨_, rfl, by omega⟩)
    · exact .inr (.inr ⟨v, rfl, by omega⟩)
    · exact .inl rfl
  · rintro (rfl | ⟨u, rfl, rfl⟩ | ⟨v, rfl, rfl⟩)
    · exact .inr rfl
    · exact .inl ⟨u % 512, by omega, .inl (by rw [Nat.div_add_mod])⟩
    · exact .inl ⟨v / 512 % 512, by omega, .inr ⟨v, rfl, by omega⟩⟩

/-- A space has frames only where its own entries lead. -/
theorem mem_ownSlots_of_holds {s : Space} (hs : s.Own) {σ : Slot} (h : s.holds σ ≠ none) : σ ∈ ownSlots := by
  have hentry : ∀ i, s.entry i ≠ none →
      i ∈ (range 512).filter fun i => i ≠ 0 ∧ i ≠ deviceWindow / pageSize / 512 / 512 := by
    intro i hi
    obtain ⟨hlt, hzero, hdevice⟩ := hs i (by simpa [Space.holds] using hi)
    simpa using ⟨hlt, hzero, hdevice⟩
  rw [ownSlots, mem_append, mem_flatMap]
  cases σ with
  | pml4 => exact .inr (by simp)
  | pdpt => exact .inr (by simp)
  | pd i => exact .inl ⟨i, hentry i (by simpa [Space.holds] using h), mem_pdSlots.mpr (.inl rfl)⟩
  | pt u =>
    have htable : s.table u ≠ none := by simpa [Space.holds] using h
    exact .inl ⟨_, hentry _ (entry_ne_none_of_table htable),
      mem_pdSlots.mpr (.inr (.inl ⟨u, rfl, rfl⟩))⟩
  | page v =>
    have hleaf : s.leaf v ≠ none := by simpa [Space.holds] using h
    have htable := table_ne_none_of_leaf hleaf
    exact .inl ⟨_, hentry _ (entry_ne_none_of_table htable),
      mem_pdSlots.mpr (.inr (.inr ⟨v, rfl, rfl⟩))⟩

lemma nodup_ptSlots (u : ℕ) : (ptSlots u).Nodup := by
  rw [ptSlots, nodup_append]
  refine ⟨List.Nodup.map (fun a b hab => by simpa using hab) nodup_range, by simp, ?_⟩
  intro σ hσ τ hτ
  obtain ⟨k, -, rfl⟩ := mem_map.mp hσ
  simp at hτ
  simp [hτ]

lemma nodup_pdSlots (i : ℕ) : (pdSlots i).Nodup := by
  rw [pdSlots, nodup_append, nodup_flatMap]
  refine ⟨⟨fun j _ => nodup_ptSlots _, ?_⟩, by simp, ?_⟩
  · refine nodup_range.imp fun {j k} hjk => ?_
    intro σ hj hk
    rw [mem_ptSlots] at hj hk
    rcases hj with rfl | ⟨v, rfl, hv⟩ <;> simp at hk <;> omega
  · intro σ hσ τ hτ
    obtain ⟨j, -, hj⟩ := mem_flatMap.mp hσ
    rw [mem_singleton] at hτ
    rw [mem_ptSlots] at hj
    rcases hj with rfl | ⟨v, rfl, -⟩ <;> simp [hτ]

theorem nodup_ownSlots : ownSlots.Nodup := by
  rw [ownSlots, nodup_append, nodup_flatMap]
  refine ⟨⟨fun i _ => nodup_pdSlots i, ?_⟩, by simp, ?_⟩
  · refine (nodup_range.filter _).imp fun {i j} hij => ?_
    intro σ hi hj
    rw [mem_pdSlots] at hi hj
    rcases hi with rfl | ⟨u, rfl, hu⟩ | ⟨v, rfl, hv⟩ <;> simp at hj <;> omega
  · intro σ hσ τ hτ
    obtain ⟨i, -, hi⟩ := mem_flatMap.mp hσ
    rw [mem_pdSlots] at hi
    rcases hi with rfl | ⟨u, rfl, -⟩ | ⟨v, rfl, -⟩ <;>
      rintro rfl <;> simp at hτ

end Wos.Mm
