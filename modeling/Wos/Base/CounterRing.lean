import Wos.Base.Ring

/-!
# Ring buffers with free-running counters

A ring buffer that keeps no element count: `head` counts the elements ever put in, `tail` those ever
taken out, both as words that wrap around at `word`, and the element with number `k` lies in cell
`k % cap`. The number of elements is the difference of the counters. The wrap-around is harmless as
long as the capacity divides the word size and is smaller than it.

## Main definitions

* `CounterRing`, `CounterRing.count`, `CounterRing.push`, `CounterRing.pops`;
* `CounterRing.Queue`: the list of elements a ring stands for.

## Main results

* `CounterRing.Queue.count_eq`, `CounterRing.Queue.pushAll`, `CounterRing.Queue.pops`.
-/

namespace Wos

open List Nat

/-- A ring buffer: its cells, and how many elements were put in and taken out, modulo a word. -/
structure CounterRing (α : Type*) where
  cells : ℕ → α
  head : ℕ
  tail : ℕ

namespace CounterRing

variable {α : Type*} (word cap : ℕ)

/-- The number of elements, as a difference of words. -/
def count (r : CounterRing α) : ℕ := (r.head + (word - r.tail)) % word

/-- Append an element; the caller makes sure that there is room. -/
def push (r : CounterRing α) (a : α) : CounterRing α :=
  { r with cells := Function.update r.cells (r.head % cap) a, head := (r.head + 1) % word }

/-- Append elements one after another. -/
def pushAll (r : CounterRing α) (as : List α) : CounterRing α := as.foldl (push word cap) r

/-- The ring after its oldest element was taken out. -/
def pop (r : CounterRing α) : CounterRing α := { r with tail := (r.tail + 1) % word }

/-- Take out elements one after another; the caller makes sure that there are enough. -/
def pops (r : CounterRing α) : ℕ → List α × CounterRing α
  | 0 => ([], r)
  | n + 1 =>
    (r.cells (r.tail % cap) :: (pops (r.pop word) n).1, (pops (r.pop word) n).2)

/-- A ring that nothing was ever put into. -/
def empty (a : α) : CounterRing α := ⟨fun _ => a, 0, 0⟩

/-- The ring stands for a list, oldest element first. -/
structure Queue (r : CounterRing α) (l : List α) : Prop where
  /-- The counter of what was taken out has wrapped around. -/
  tail_lt : r.tail < word
  /-- The counter of what was put in is ahead by the length. -/
  head_eq : r.head = (r.tail + l.length) % word
  /-- The list fits the array. -/
  length_le : l.length ≤ cap
  /-- The elements lie behind each other from the tail on. -/
  cell : ∀ k, l[k]? = none ∨ l[k]? = some (r.cells ((r.tail + k) % cap))

variable {word cap} {r : CounterRing α} {l : List α}

namespace Queue

variable (h : r.Queue word cap l)

include h

lemma count_eq (hlt : cap < word) : r.count word = l.length := by
  have htail := h.tail_lt
  have hlen := h.length_le
  rw [count, h.head_eq, mod_add_mod,
    show r.tail + l.length + (word - r.tail) = l.length + word by omega, add_mod_right,
    mod_eq_of_lt (by omega)]

/-- Putting an element in appends it to the list. -/
lemma push (hdvd : cap ∣ word) (hroom : l.length < cap) (a : α) :
    (r.push word cap a).Queue word cap (l ++ [a]) where
  tail_lt := h.tail_lt
  head_eq := by
    change (r.head + 1) % word = (r.tail + (l ++ [a]).length) % word
    rw [h.head_eq, mod_add_mod, length_append, add_assoc]
    rfl
  length_le := by
    rw [length_append]
    exact hroom
  cell k := by
    have hhead : r.head % cap = (r.tail + l.length) % cap := by
      rw [h.head_eq, mod_mod_of_dvd _ hdvd]
    change _ ∨ _ = some (Function.update r.cells (r.head % cap) a ((r.tail + k) % cap))
    rcases lt_trichotomy k l.length with hk | hk | hk
    · -- an older element: its cell is not the new one's
      have hne : (r.tail + k) % cap ≠ r.head % cap := by
        rw [hhead]
        exact Ring.add_mod_ne hk (by omega)
      rw [Function.update_of_ne hne, List.getElem?_append_left hk]
      exact h.cell k
    · right
      rw [hk, hhead, Function.update_self, List.getElem?_append_right le_rfl, Nat.sub_self]
      rfl
    · left
      rw [List.getElem?_eq_none_iff, length_append]
      exact hk

lemma pushAll (hdvd : cap ∣ word) {as : List α} (hroom : l.length + as.length ≤ cap) :
    (r.pushAll word cap as).Queue word cap (l ++ as) := by
  induction as generalizing r l with
  | nil =>
    rw [append_nil]
    exact h
  | cons a as ih =>
    rw [length_cons] at hroom
    rw [append_cons]
    refine ih (h.push hdvd (by omega) a) ?_
    rw [length_append, length_singleton]
    omega

lemma pop (hdvd : cap ∣ word) {a : α} {l' : List α} (hl : l = a :: l') :
    (r.pop word).Queue word cap l' ∧ r.cells (r.tail % cap) = a := by
  subst hl
  refine ⟨⟨?_, ?_, ?_, fun k => ?_⟩, ?_⟩
  · exact mod_lt _ (zero_lt_of_lt h.tail_lt)
  · change r.head = ((r.tail + 1) % word + l'.length) % word
    rw [h.head_eq, mod_add_mod, length_cons, add_assoc, add_comm 1]
  · exact (le_succ _).trans h.length_le
  · change _ ∨ _ = some (r.cells (((r.tail + 1) % word + k) % cap))
    rw [add_mod, mod_mod_of_dvd _ hdvd, ← add_mod, add_assoc, add_comm 1]
    exact h.cell (k + 1)
  · rcases h.cell 0 with hnone | hsome
    · cases hnone
    · exact (Option.some.inj hsome).symm

lemma pops (hdvd : cap ∣ word) {n : ℕ} (hn : n ≤ l.length) :
    (r.pops word cap n).1 = l.take n ∧ (r.pops word cap n).2.Queue word cap (l.drop n) := by
  induction n generalizing r l with
  | zero => exact ⟨take_zero.symm, h⟩
  | succ n ih =>
    obtain ⟨a, l', rfl⟩ := exists_cons_of_length_pos (zero_lt_of_lt hn)
    obtain ⟨hpop, hcell⟩ := h.pop hdvd rfl
    obtain ⟨htake, hdrop⟩ := ih hpop (le_of_succ_le_succ hn)
    refine ⟨?_, hdrop⟩
    rw [CounterRing.pops, hcell, htake, take_succ_cons]

end Queue

end CounterRing

end Wos
