import Mathlib.Data.List.Infix
import Mathlib.Data.Nat.ModEq

/-!
# Ring buffers

A ring buffer of fixed capacity keeps its elements in an array, from the index `tail` on, and wraps
around at the end of the array. What it stands for is a queue: `Ring.contents` lists the elements,
oldest first, and the operations are those of a list.

The capacity is a parameter of the operations, as it is a constant of the program that uses them.

## Main definitions

* `Ring`, `Ring.push`, `Ring.front`, `Ring.pop`, `Ring.clear`;
* `Ring.Ok`: the indices fit together;
* `Ring.contents`: the queue.

## Main results

* `Ring.Ok.contents_push`, `Ring.Ok.contents_pop`, `Ring.Ok.clear`.
-/

namespace Wos

open List Nat

/-- A ring buffer: an array, where the next element goes, where the oldest one is, and how many
there are. -/
structure Ring (α : Type*) where
  cells : ℕ → α
  head : ℕ
  tail : ℕ
  count : ℕ

namespace Ring

variable {α : Type*} (cap : ℕ)

/-- An empty ring whose cells all hold the same value. -/
def empty (a : α) : Ring α := ⟨fun _ => a, 0, 0, 0⟩

/-- Append an element; the caller makes sure that there is room. -/
def push (r : Ring α) (a : α) : Ring α :=
  { r with
    cells := Function.update r.cells r.head a
    head := (r.head + 1) % cap
    count := r.count + 1 }

/-- The oldest element, if there is any. -/
def front (r : Ring α) : α := r.cells r.tail

/-- Remove the oldest element; the caller makes sure that there is one. -/
def pop (r : Ring α) : Ring α := { r with tail := (r.tail + 1) % cap, count := r.count - 1 }

/-- Remove all elements, one after another. -/
def clear (r : Ring α) : Ring α := (pop cap)^[r.count] r

/-- The indices fit together and lie in the array. -/
structure Ok (r : Ring α) : Prop where
  /-- The tail is an index of the array. -/
  tail_lt : r.tail < cap
  /-- No more elements than cells. -/
  count_le : r.count ≤ cap
  /-- The head is where the next element goes. -/
  head_eq : r.head = (r.tail + r.count) % cap

/-- The elements, oldest first. -/
def contents (r : Ring α) : List α :=
  (List.range r.count).map fun k => r.cells ((r.tail + k) % cap)

variable {cap} {r : Ring α}

@[simp]
lemma length_contents : (r.contents cap).length = r.count := by simp [contents]

lemma ok_empty (hcap : 0 < cap) (a : α) : (empty a).Ok cap :=
  ⟨hcap, zero_le _, (zero_mod _).symm⟩

lemma contents_eq_nil_iff : r.contents cap = [] ↔ r.count = 0 := by
  rw [← length_eq_zero_iff, length_contents]

/-- Indices that differ by less than the capacity stay different when they wrap around. -/
lemma add_mod_ne {t i j : ℕ} (hij : i < j) (hj : j < i + cap) : (t + i) % cap ≠ (t + j) % cap := by
  intro h
  have hdvd : cap ∣ (t + j) - (t + i) := (modEq_iff_dvd' (by omega)).mp h
  have hle := le_of_dvd (by omega) hdvd
  omega

namespace Ok

variable (h : r.Ok cap)

include h

lemma push (hroom : r.count < cap) (a : α) : (r.push cap a).Ok cap where
  tail_lt := h.tail_lt
  count_le := hroom
  head_eq := by
    change (r.head + 1) % cap = (r.tail + (r.count + 1)) % cap
    rw [h.head_eq, mod_add_mod, add_assoc]

lemma contents_push (hroom : r.count < cap) (a : α) :
    (r.push cap a).contents cap = r.contents cap ++ [a] := by
  unfold contents
  rw [show (r.push cap a).count = r.count + 1 from rfl, range_succ, map_append]
  congr 1
  · refine map_congr_left fun k hk => ?_
    -- the new cell is none of those in use
    have hne : (r.tail + k) % cap ≠ r.head := by
      rw [h.head_eq]
      exact add_mod_ne (mem_range.mp hk) (by omega)
    exact Function.update_of_ne hne _ _
  · have hhead : (r.tail + r.count) % cap = r.head := h.head_eq.symm
    simp [Ring.push, hhead]

lemma pop (hsome : 0 < r.count) : (r.pop cap).Ok cap where
  tail_lt := mod_lt _ (by have := h.tail_lt; omega)
  count_le := (sub_le _ _).trans h.count_le
  head_eq := by
    change r.head = ((r.tail + 1) % cap + (r.count - 1)) % cap
    rw [h.head_eq, mod_add_mod]
    congr 1
    omega

lemma contents_pop (hsome : 0 < r.count) :
    r.contents cap = r.front :: (r.pop cap).contents cap := by
  obtain ⟨n, hn⟩ := exists_eq_succ_of_ne_zero hsome.ne'
  unfold contents
  rw [show (r.pop cap).count = n by simp [Ring.pop, hn], hn, range_succ_eq_map, map_cons, map_map]
  congr 1
  · rw [add_zero, mod_eq_of_lt h.tail_lt]
    rfl
  · refine map_congr_left fun k _ => ?_
    change r.cells ((r.tail + (k + 1)) % cap) = r.cells (((r.tail + 1) % cap + k) % cap)
    rw [mod_add_mod, add_assoc, add_comm 1 k]

lemma clear : (r.clear cap).Ok cap ∧ (r.clear cap).contents cap = [] := by
  unfold Ring.clear
  -- one element after another, as many as there are
  generalize hn : r.count = n
  induction n generalizing r with
  | zero => exact ⟨h, contents_eq_nil_iff.mpr hn⟩
  | succ n ih =>
    have hpop : (r.pop cap).count = n := by simp [Ring.pop, hn]
    exact ih (h.pop (by omega)) hpop

end Ok

end Ring

end Wos
