import Wos.Mm.Sound

/-!
# Pages, files and address spaces

The calls of the memory machine that have nothing to do with shared objects keep the invariant: a process
maps and unmaps pages of its own, a file gets and gives back its blocks, and an address space is made and
freed.

## Main results

* `Sound.mapAlloc`, `Sound.unmap`: pages;
* `Sound.blockGet`, `Sound.blocksRelease`: files;
* `Sound.newSpace`, `Sound.freeSpace`: address spaces.
-/

namespace Wos.Mm

open Function Memory List Option

variable {ι : Type*} [Fintype ι] [DecidableEq ι] {m₀ : Pmm} {w : Memory ι} {p : ι} {q : ProcMem}
  {v : ℕ}

/-! ## Pages of a process's own -/

/-- Mapping a page takes a frame and the tables on the way. -/
theorem Sound.mapAlloc (h : Sound m₀ w) (flags : PteFlags)
    (hallowed : (MemOp.mapAlloc p v flags).Allowed w) :
    Good m₀ ((MemOp.mapAlloc p v flags).exec w) := by
  obtain ⟨hp, hv⟩ := hallowed
  obtain ⟨q, hq⟩ := ne_none_iff_exists'.mp hp
  simp only [MemOp.exec, hq]
  rcases pagingMapAlloc_cases w.pmm q.space v flags with ⟨hmap, -⟩ |
    ⟨ok, m', space, hmap, hmapped, hok⟩
  · rw [hmap]
    exact ⟨v, rfl⟩
  rw [hmap]
  -- A page that went in was absent, so it is in no mapping.
  have hnew : ok = true → q.space.leaf v = none ∧ ¬ q.Covered v := fun hok' =>
    ⟨hok hok', fun hcovered => (h.procs p q hq).leaf_covered hcovered (hok hok')⟩
  refine h.setSpace hq ((h.fits hq).mapped hv hnew hmapped) fun u hu => ?_
  rcases hmapped.leaf u with heq | ⟨hok', rfl, -⟩
  · exact heq
  · exact absurd hu (hnew hok').2

/-- Unmapping gives the frame back. -/
theorem Sound.unmap (h : Sound m₀ w) (hallowed : (MemOp.unmap p v).Allowed w) :
    Good m₀ ((MemOp.unmap p v).exec w) := by
  obtain ⟨⟨q, hq, hv⟩, -⟩ := hallowed
  simp only [MemOp.exec, hq]
  cases hleaf : q.space.leaf v with
  | none =>
    rw [unmap_none hleaf]
    exact h.setSpace hq (h.fits hq) fun _ _ => rfl
  | some e =>
    -- The frame is owned at this page alone.
    have hholds : (q.space.withoutPage v e).holds = update q.space.holds (.page v) none :=
      Space.holds_setLeaf (Space.table_ne_none_of_leaf (by simp [hleaf])) none
    have hfits := h.fits hq
    have hslots : w.withSlots p ((q.space.withoutPage v e).hide q.Covered) =
        update (w.withSlots p (q.space.hide q.Covered)) (.space p (.page v)) none := by
      rw [Space.hide_update_page hholds, if_neg hv, withSlots_update]
    have hheld : ∀ r, r ∈ [e.frame] ↔ ∃ x, x = Owner.space p (.page v) ∧
        w.withSlots p (q.space.hide q.Covered) x = some r := by
      simp [Memory.withSlots, slots, Space.hide, hv, Space.holds, hleaf, eq_comm]
    obtain ⟨m', hfree, -, hbooks⟩ := hfits.books.give (nodup_singleton _) hheld
      (G := w.withSlots p ((q.space.withoutPage v e).hide q.Covered))
      (by rintro x rfl; rw [hslots, update_self])
      (fun x hx => by rw [hslots, update_of_ne hx])
    have hunmap : Mm.unmap w.pmm q.space v true = .ok (m', q.space.withoutPage v e) := by
      rw [Pmm.freeFrames_singleton] at hfree
      simp only [Mm.unmap, hleaf, if_true, hfree]
    rw [hunmap]
    refine h.setSpace hq ⟨hbooks, fun i hi => hfits.own i ?_⟩ fun u hu => ?_
    · rwa [hholds, update_of_ne (by simp)] at hi
    · rw [unmap_leaf hunmap, if_neg]
      rintro rfl
      exact hv hu

/-! ## Files -/

/-- Empty blocks may be added at the end. -/
lemma blockAt_append_none (b : Blocks) (n i : ℕ) :
    blockAt (b ++ List.replicate n none) i = blockAt b i := by
  simp only [blockAt, List.getElem?_append, List.getElem?_replicate]
  split_ifs with hi
  · rfl
  · simp [hi]
  · simp [hi]

variable {b : Blocks} {index : ℕ}

lemma blockAt_set (h : index < b.length) (x : Option ℕ) (i : ℕ) :
    blockAt (b.set index x) i = if i = index then x else blockAt b i := by
  simp only [blockAt, List.getElem?_set]
  by_cases hi : i = index
  · subst hi
    simp [h]
  · simp [hi, Ne.symm hi]

lemma blockAt_drop (b : Blocks) (start i : ℕ) :
    blockAt (b.drop start) i = blockAt b (start + i) := by
  simp [blockAt]

lemma blockAt_take (b : Blocks) (start i : ℕ) :
    blockAt (b.take start) i = if start ≤ i then none else blockAt b i := by
  simp only [blockAt, List.getElem?_take]
  split_ifs <;> first | rfl | omega

/-- The frames of some blocks. -/
lemma mem_filterMap_id {f : ℕ} : f ∈ b.filterMap id ↔ ∃ i, blockAt b i = some f := by
  rw [mem_filterMap]
  simp only [id, exists_eq_right, blockAt, join_eq_some_iff]
  exact mem_iff_getElem?

/-- Blocks on different frames. -/
lemma nodup_filterMap_id (h : ∀ i j f, blockAt b i = some f → blockAt b j = some f → i = j) :
    (b.filterMap id).Nodup := by
  rw [List.Nodup, pairwise_filterMap, pairwise_iff_getElem]
  rintro i j hi hj hij f hf g hg rfl
  refine absurd (h i j f ?_ ?_) hij.ne
  · simpa [blockAt, hi] using hf
  · simpa [blockAt, hj] using hg

/-- Making room changes no block. -/
lemma blockRoom_some {b' : Blocks} {create heapOk : Bool}
    (h : blockRoom b index create heapOk = some b') :
    index < b'.length ∧ ∀ i, blockAt b' i = blockAt b i := by
  unfold blockRoom blocksReserve at h
  split_ifs at h with hlt _ hroom
  · cases h
    exact ⟨hlt, fun _ => rfl⟩
  · omega
  obtain rfl := some.inj h
  have hle := le_grownCount b.length (index + 1)
  refine ⟨?_, blockAt_append_none b _⟩
  rw [length_append, length_replicate]
  omega

/-- `block_get` changes no block, or takes a frame for the block it is asked for. -/
lemma blockGet_spec (m : Pmm) (b : Blocks) (index : ℕ) (create heapOk : Bool) :
    ∃ r m' b', blockGet m b index create heapOk = (r, m', b') ∧
      ((m' = m ∨ m.Took 0 m') ∧ (∀ i, blockAt b' i = blockAt b i) ∨
        ∃ f, m.Took f m' ∧ blockAt b index = none ∧
          ∀ i, blockAt b' i = if i = index then some f else blockAt b i) := by
  unfold blockGet
  cases hroom : blockRoom b index create heapOk with
  | none => exact ⟨none, m, b, rfl, .inl ⟨.inl rfl, fun _ => rfl⟩⟩
  | some b' =>
    obtain ⟨hlt, hsame⟩ := blockRoom_some hroom
    cases hblock : blockAt b' index with
    | some f => exact ⟨some f, m, b', by simp only [hblock], .inl ⟨.inl rfl, hsame⟩⟩
    | none =>
      simp only [hblock]
      split_ifs with hcreate
      · exact ⟨none, m, b', rfl, .inl ⟨.inl rfl, hsame⟩⟩
      rcases zeroedLowFrame_cases m with ⟨f, m', halloc, -, htook, -⟩ | ⟨m', halloc, hm'⟩
      · refine ⟨some f, m', b'.set index (some f), by simp only [halloc],
          .inr ⟨f, htook, hsame index ▸ hblock, fun i => ?_⟩⟩
        rw [blockAt_set hlt, hsame]
      · exact ⟨none, m', b', by simp only [halloc], .inl ⟨hm', hsame⟩⟩

omit [Fintype ι] in
lemma slots_file (priv : ι → Slot → Option ℕ) (shms : Shms) (files : ℕ → Blocks) {n i : ℕ}
    {x : Option ℕ} (hb : ∀ j, blockAt b j = if j = i then x else blockAt (files n) j) :
    slots priv shms (update files n b) = update (slots priv shms files) (.file n i) x := by
  funext y
  cases y with
  | space p σ => simp [slots]
  | shm o k => simp [slots]
  | file n' j =>
    simp only [slots, update_apply, Owner.file.injEq]
    by_cases hn : n' = n
    · subst hn
      simp [hb j]
    · simp [hn]

/-- A file takes a frame for a block it did not have. -/
theorem Sound.blockGet (h : Sound m₀ w) (n index : ℕ) (create heapOk : Bool) :
    Good m₀ ((MemOp.blockGet n index create heapOk).exec w) := by
  have hbooks := h.books
  obtain ⟨r, m', b, hget, ⟨hm', hsame⟩ | ⟨f, htook, hnone, hb⟩⟩ :=
    blockGet_spec w.pmm (w.files n) index create heapOk
  · obtain rfl : m' = w.pmm := hm'.resolve_right h.books.not_took_zero
    simp only [MemOp.exec, hget]
    refine h.setFiles ?_
    -- No block changes, in particular not the one that was asked for.
    have hb : ∀ j, blockAt b j = if j = index then blockAt (w.files n) index
        else blockAt (w.files n) j := by
      intro j
      rw [hsame]
      split_ifs with hj
      · rw [hj]
      · rfl
    rw [slots_file w.priv w.shms w.files hb]
    have hself := update_eq_self (Owner.file n index) (slots w.priv w.shms w.files)
    exact hself.symm ▸ hbooks
  · simp only [MemOp.exec, hget]
    refine h.setFiles ?_
    rw [slots_file w.priv w.shms w.files hb]
    exact (hbooks.took htook).place (x := .file n index) (hbooks.notMem_of_took htook)
      hbooks.zero (htook.total.symm ▸ htook.lt) hnone

/-- A file gives back every block from one on. -/
theorem Sound.blocksRelease (h : Sound m₀ w) (n start : ℕ) :
    Good m₀ ((MemOp.blocksRelease n start).exec w) := by
  generalize hb : (if start = 0 then [] else
    (w.files n).take start ++ List.replicate ((w.files n).length - start) none) = b
  have hblocks : ∀ i, blockAt b i = if start ≤ i then none else blockAt (w.files n) i := by
    intro i
    subst hb
    split_ifs with hstart hi hi
    · rfl
    · omega
    · rw [blockAt_append_none, blockAt_take, if_pos hi]
    · rw [blockAt_append_none, blockAt_take, if_neg hi]
  have hnodup : (((w.files n).drop start).filterMap id).Nodup := by
    refine nodup_filterMap_id fun i j f hi hj => ?_
    rw [blockAt_drop] at hi hj
    have heq := h.books.owned.inj (.file n (start + i)) (.file n (start + j)) f hi hj
    simpa using heq
  have hfs : ∀ r, r ∈ ((w.files n).drop start).filterMap id ↔
      ∃ x, (∃ i, start ≤ i ∧ x = Owner.file n i) ∧ w.holds x = some r := by
    intro r
    rw [mem_filterMap_id]
    constructor
    · rintro ⟨i, hi⟩
      rw [blockAt_drop] at hi
      exact ⟨_, ⟨start + i, by omega, rfl⟩, hi⟩
    · rintro ⟨x, ⟨i, hi, rfl⟩, hx⟩
      refine ⟨i - start, ?_⟩
      rw [blockAt_drop, Nat.add_sub_of_le hi]
      exact hx
  have hleft : ∀ x, (¬ ∃ i, start ≤ i ∧ x = Owner.file n i) →
      slots w.priv w.shms (update w.files n b) x = w.holds x := by
    intro x hx
    cases x with
    | space p σ => rfl
    | shm o k => rfl
    | file n' i =>
      by_cases hn : n' = n
      · subst hn
        have hi : ¬ start ≤ i := fun hi => hx ⟨i, hi, rfl⟩
        simp [slots, Memory.holds, hblocks, hi]
      · simp [slots, Memory.holds, hn]
  obtain ⟨m', hfree, -, hbooks⟩ := h.books.give hnodup hfs (fun x hx => by
    obtain ⟨i, hi, rfl⟩ := hx
    simp [slots, hblocks, hi]) hleft
  simp only [MemOp.exec, Mm.blocksRelease, hfree, hb]
  exact h.setFiles hbooks

/-! ## Address spaces -/

omit [Fintype ι] in
lemma Memory.setProc_none (hp : w.procs p = none) (m' : Pmm) :
    w.setProc p m' w.shms none = { w with pmm := m' } := by
  rw [setProc, ← hp, update_eq_self]

/-- A space with nothing but its two upper tables. -/
lemma own_empty (a b : ℕ) :
    (⟨⟨a, b, fun _ => none, 0, 2⟩, fun _ => none, 0, 0⟩ : ProcMem).own =
      update (update (fun _ => none) .pdpt (some b)) .pml4 (some a) := by
  funext σ
  cases σ with
  | pml4 | pdpt | pd i => simp [ProcMem.own, Space.hide, Space.holds]
  | pt u => simp [ProcMem.own, Space.hide, Space.holds, Space.table]
  | page v => simp [ProcMem.own, Space.hide, Space.holds, Space.leaf, Space.table]

/-- A process that has just got a space is in order. -/
lemma ProcSound.empty (shms : Shms) (a b : ℕ) :
    ProcSound shms ⟨⟨a, b, fun _ => none, 0, 2⟩, fun _ => none, 0, 0⟩ where
  own i hi := by simp [Space.holds] at hi
  window i x hx := by cases hx
  disjoint i j x y v hx := by cases hx
  mapped i x hx := by cases hx

lemma Sound.setNew (h : Sound m₀ w) (hp : w.procs p = none) {m' : Pmm} {a b : ℕ}
    (hbooks : Books {f | m₀.used f = true} m₀.total m' (w.withSlots p
      (update (update (fun _ => none) .pdpt (some b)) .pml4 (some a)))) :
    Sound m₀ (w.setProc p m' w.shms
      (some ⟨⟨a, b, fun _ => none, 0, 2⟩, fun _ => none, 0, 0⟩)) where
  books := by
    rw [holds_setProc, own_empty]
    exact hbooks
  procs p' q' hq' := by
    rw [procs_setProc] at hq'
    split_ifs at hq' with hp'
    · cases hq'
      exact ProcSound.empty w.shms a b
    · exact h.procs p' q' hq'
  refs o sh hsh := by
    rw [mappers_setProc m' w.shms (by simp [Memory.mapping, hp])]
    exact h.refs o sh hsh
  handles := h.handles

/-- A new address space takes its two tables, or neither. -/
theorem Sound.newSpace (h : Sound m₀ w) (heapOk : Bool)
    (hp : (MemOp.newSpace p heapOk).Allowed w) :
    Good m₀ ((MemOp.newSpace p heapOk).exec w) := by
  have hp : w.procs p = none := hp
  simp only [MemOp.exec, pagingNewAddrspace]
  split_ifs with hheap
  · simp only [map_none, setProc_none hp]
    exact h.setPmm h.books
  rcases zeroedLowFrame_cases w.pmm with ⟨a, m1, halloc, -, htook, -⟩ | ⟨m', halloc, hm'⟩
  · have hbooks1 := h.books.took htook
    have ha := h.books.notMem_of_took htook
    have hlt : a < m1.total := htook.total.symm ▸ htook.lt
    rcases zeroedLowFrame_cases m1 with ⟨b, m2, halloc2, -, htook2, -⟩ | ⟨m', halloc2, hm'⟩
    · simp only [halloc, halloc2, map_some]
      have hbooks2 := hbooks1.took htook2
      have hb := hbooks1.notMem_of_took htook2
      rw [← w.withSlots_priv (p := p), Memory.priv, hp] at hbooks2
      -- The two frames go to the two upper tables.
      have hpdpt := hbooks2.place (x := .space p .pdpt) hb hbooks1.zero
        (htook2.total.symm ▸ htook2.lt) (by simp [Memory.withSlots, slots])
      rw [← withSlots_update] at hpdpt
      have hpml4 := hpdpt.place (x := .space p .pml4) ha h.books.zero
        (htook2.total.symm ▸ hlt) (by simp [Memory.withSlots, slots])
      rw [← withSlots_update] at hpml4
      exact h.setNew hp hpml4
    · -- There is no frame for the second table, and the first is given back.
      have hsame : m' = m1 := hm'.resolve_right hbooks1.not_took_zero
      rw [hsame] at halloc2
      obtain ⟨m'', hfree, hgave⟩ := Pmm.freeFrame_ok hlt
        (hbooks1.owned.used_of_kept (Set.mem_insert _ _))
      simp only [halloc, halloc2, hfree, map_none, setProc_none hp]
      exact h.setPmm (hbooks1.drop ha h.books.zero hlt hgave)
  · obtain rfl : m' = w.pmm := hm'.resolve_right h.books.not_took_zero
    simp only [halloc, map_none, setProc_none hp]
    exact h.setPmm h.books

/-- Without mappings, all the frames a space names are its own. -/
lemma ProcMem.own_of_unmapped {q : ProcMem} (hmaps : ∀ i, q.maps i = none) :
    q.own = q.space.holds := by
  have hcovered : ∀ v, ¬ q.Covered v := by
    rintro v ⟨i, x, hx, -⟩
    simp [hmaps i] at hx
  funext σ
  cases σ <;> simp [ProcMem.own, Space.hide, hcovered]

/-- Freeing an address space gives back every frame it has. -/
theorem Sound.freeSpace (h : Sound m₀ w) (hallowed : (MemOp.freeSpace p).Allowed w) :
    Good m₀ ((MemOp.freeSpace p).exec w) := by
  obtain ⟨q, hq, hmaps⟩ := hallowed
  have hown : ∀ σ, w.holds (.space p σ) = q.space.holds σ := by
    intro σ
    rw [← ProcMem.own_of_unmapped hmaps, ← priv_of_some hq]
    rfl
  have hnodup : q.space.frames.Nodup := by
    rw [frames_eq, List.Nodup, pairwise_filterMap]
    refine nodup_ownSlots.imp fun {σ τ} hne f hf g hg heq => ?_
    subst heq
    have hsame := h.books.owned.inj (.space p σ) (.space p τ) f ((hown σ).trans hf)
      ((hown τ).trans hg)
    exact hne (by simpa using hsame)
  have hfs : ∀ r, r ∈ q.space.frames ↔ ∃ x, (∃ σ, x = Owner.space p σ) ∧ w.holds x = some r := by
    intro r
    rw [frames_eq, mem_filterMap]
    constructor
    · rintro ⟨σ, -, hσ⟩
      exact ⟨_, ⟨σ, rfl⟩, (hown σ).trans hσ⟩
    · rintro ⟨x, ⟨σ, rfl⟩, hσ⟩
      rw [hown] at hσ
      exact ⟨σ, mem_ownSlots_of_holds (h.procs p q hq).own (by simp [hσ]), hσ⟩
  have hpriv : ∀ m, (w.setProc p m w.shms none).holds = w.withSlots p fun _ => none := by
    intro m
    rw [Memory.holds, priv_setProc]
    rfl
  obtain ⟨m', hfree, -, hbooks⟩ := h.books.give hnodup hfs
    (G := w.withSlots p fun _ => none)
    (fun x hx => by
      obtain ⟨σ, rfl⟩ := hx
      simp [Memory.withSlots, slots])
    (fun x hx => by
      rw [← w.withSlots_priv (p := p)]
      cases x with
      | space p' σ =>
        have hp : p' ≠ p := fun hp => hx ⟨σ, by rw [hp]⟩
        simp [Memory.withSlots, slots, hp]
      | shm o k => rfl
      | file n i => rfl)
  simp only [MemOp.exec, hq, pagingFreeAddrspace, hfree]
  refine ⟨hpriv m' ▸ hbooks, fun p' q' hq' => ?_, fun o sh hsh => ?_, h.handles⟩
  · rw [procs_setProc] at hq'
    split_ifs at hq'
    exact h.procs p' q' hq'
  · rw [mappers_setProc m' w.shms (by simp [Memory.mapping, hq, hmaps])]
    exact h.refs o sh hsh

end Wos.Mm
