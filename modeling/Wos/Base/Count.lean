import Mathlib.Data.Finset.Card

/-!
# Counting the elements that satisfy a property

How the number of elements of a finite set that satisfy a decidable property changes when the
property changes at a single element. This is what keeps a cached count of free or used objects
in step with the objects.
-/

namespace Wos

variable {α : Type*} {s : Finset α} {p q : α → Prop} [DecidablePred p] [DecidablePred q] {a : α}

/-- One more element satisfies `q` than satisfied `p`. -/
lemma card_filter_succ (ha : a ∈ s) (hp : ¬ p a) (hq : q a)
    (h : ∀ x ∈ s, x ≠ a → (q x ↔ p x)) : (s.filter q).card = (s.filter p).card + 1 := by
  classical
  have hset : s.filter q = insert a (s.filter p) := by
    ext x
    simp only [Finset.mem_filter, Finset.mem_insert]
    by_cases hx : x = a
    · subst hx
      simp [ha, hq]
    · simp only [hx, false_or]
      exact and_congr_right fun hs => h x hs hx
  rw [hset, Finset.card_insert_of_notMem (by simp [hp])]

end Wos
