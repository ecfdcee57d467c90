import Mathlib.Data.Set.Insert

/-!
# Resources with one owner

A pool of resources, each used or free, and a system whose places hold resources. `Owned` says that the
pool and the places agree: a resource is used exactly when it is kept aside or held at a place, no two
places hold the same, and what is kept aside is not held at all.

A resource that has been taken out of the pool and not yet been put anywhere is kept aside for that
time. So an operation is a sequence of moves:

* `Owned.take`: from the pool to the side;
* `Owned.place`: from the side to a place;
* `Owned.drop`: from the side back to the pool;
* `Owned.giveAll`: from some places to the pool.
-/

namespace Wos

open Function Set

/-- The pool `used` and the places `holds` agree, apart from the resources `kept` aside. -/
structure Owned {R S : Type*} (used : R → Bool) (kept : Set R) (holds : S → Option R) : Prop where
  /-- A resource is in use if and only if it is kept or in some place. -/
  used_iff (r : R) : used r = true ↔ r ∈ kept ∨ ∃ x, holds x = some r
  /-- No resource is in two places. -/
  inj (x y : S) (r : R) : holds x = some r → holds y = some r → x = y
  /-- What is kept is in no place. -/
  not_kept (x : S) (r : R) : holds x = some r → r ∉ kept

namespace Owned

variable {R S : Type*} [DecidableEq R] {used used' : R → Bool} {kept : Set R}
  {holds holds' : S → Option R} {f : R}

omit [DecidableEq R] in
lemma used_of_holds (h : Owned used kept holds) {x : S} (hx : holds x = some f) : used f = true :=
  (h.used_iff f).mpr (.inr ⟨x, hx⟩)

omit [DecidableEq R] in
lemma used_of_kept (h : Owned used kept holds) (hf : f ∈ kept) : used f = true :=
  (h.used_iff f).mpr (.inl hf)

lemma take (h : Owned used kept holds) (hf : used f = false) :
    Owned (update used f true) (insert f kept) holds where
  used_iff r := by
    rw [update_apply, mem_insert_iff, or_assoc, ← h.used_iff]
    split_ifs with hr <;> simp [hr]
  inj := h.inj
  not_kept x r hx hr := by
    rcases mem_insert_iff.mp hr with rfl | hr
    · exact absurd (h.used_of_holds hx) (by simp [hf])
    · exact h.not_kept x r hx hr

omit [DecidableEq R] in
lemma drop (h : Owned used (insert f kept) holds) (hf : f ∉ kept)
    (hused : ∀ r, used' r = true ↔ used r = true ∧ r ≠ f) : Owned used' kept holds where
  used_iff r := by
    rw [hused, h.used_iff, mem_insert_iff]
    constructor
    · rintro ⟨(hr | hr) | hr, hne⟩
      · exact absurd hr hne
      · exact .inl hr
      · exact .inr hr
    · rintro (hr | ⟨x, hx⟩)
      · exact ⟨.inl (.inr hr), fun heq => hf (heq ▸ hr)⟩
      · exact ⟨.inr ⟨x, hx⟩, fun heq => h.not_kept x r hx (heq ▸ mem_insert _ _)⟩
  inj := h.inj
  not_kept x r hx hr := h.not_kept x r hx (mem_insert_of_mem _ hr)

variable [DecidableEq S]

omit [DecidableEq R] in
/-- A resource that was kept aside goes to an empty place. -/
lemma place (h : Owned used (insert f kept) holds) (hf : f ∉ kept) {x : S}
    (hx : holds x = none) : Owned used kept (update holds x (some f)) := by
  -- Every other place holds something else.
  have hother : ∀ y, holds y ≠ some f := fun y hy => h.not_kept y f hy (mem_insert _ _)
  refine ⟨fun r => ?_, fun y z r hy hz => ?_, fun y r hy hr => ?_⟩
  · rw [h.used_iff, mem_insert_iff]
    constructor
    · rintro ((rfl | hr) | ⟨y, hy⟩)
      · exact .inr ⟨x, update_self ..⟩
      · exact .inl hr
      refine .inr ⟨y, ?_⟩
      rwa [update_of_ne]
      rintro rfl
      simp [hx] at hy
    · rintro (hr | ⟨y, hy⟩)
      · exact .inl (.inr hr)
      rw [update_apply] at hy
      split_ifs at hy
      · exact .inl (.inl (Option.some.inj hy).symm)
      · exact .inr ⟨y, hy⟩
  · rw [update_apply] at hy hz
    split_ifs at hy hz with hyx hzx hzx
    · rw [hyx, hzx]
    · exact absurd (hz.trans hy.symm) (hother z)
    · exact absurd (hy.trans hz.symm) (hother y)
    · exact h.inj y z r hy hz
  · rw [update_apply] at hy
    split_ifs at hy
    · exact hf ((Option.some.inj hy) ▸ hr)
    · exact h.not_kept y r hy (mem_insert_of_mem _ hr)

omit [DecidableEq R] [DecidableEq S] in
/-- The places `D` are emptied, and what they held goes back to the pool. -/
lemma giveAll (h : Owned used kept holds) {D : S → Prop} {fs : List R}
    (hfs : ∀ r, r ∈ fs ↔ ∃ x, D x ∧ holds x = some r)
    (hused : ∀ r, used' r = true ↔ used r = true ∧ r ∉ fs)
    (hgone : ∀ x, D x → holds' x = none) (hleft : ∀ x, ¬ D x → holds' x = holds x) :
    Owned used' kept holds' := by
  have hsome : ∀ {x r}, holds' x = some r → ¬ D x ∧ holds x = some r := by
    intro x r hx
    have hD : ¬ D x := fun hD => by simp [hgone x hD] at hx
    exact ⟨hD, hleft x hD ▸ hx⟩
  refine ⟨fun r => ?_, fun x y r hx hy => ?_, fun x r hx => ?_⟩
  · rw [hused, h.used_iff, hfs]
    constructor
    · rintro ⟨hr | ⟨x, hx⟩, hnot⟩
      · exact .inl hr
      · have hD : ¬ D x := fun hD => hnot ⟨x, hD, hx⟩
        exact .inr ⟨x, (hleft x hD).trans hx⟩
    · rintro (hr | ⟨x, hx⟩)
      · exact ⟨.inl hr, fun ⟨x, _, hx⟩ => h.not_kept x r hx hr⟩
      · obtain ⟨hD, hx⟩ := hsome hx
        exact ⟨.inr ⟨x, hx⟩, fun ⟨y, hDy, hy⟩ => hD (h.inj x y r hx hy ▸ hDy)⟩
  · exact h.inj x y r (hsome hx).2 (hsome hy).2
  · exact h.not_kept x r (hsome hx).2

end Owned

end Wos
