import Mathlib.Data.List.Nodup
import Mathlib.Logic.Function.Iterate
import Wos.Proc.Sched

/-!
# No ready thread is passed over for long

`pick_next` of `kernel/proc/sched.c` goes round the run queue from the thread after the current one.
Whatever becomes of the other threads between its calls on a processor, each call takes a thread that
waits or comes closer to it.

## Main results

* `Machine.pickNext_closer`: what one call does;
* `no_starvation`: a thread that stays ready is chosen within one round of calls.
-/

namespace Wos.Proc

open List hiding beq_eq_decide
open Nat

variable {P T : Type*} [DecidableEq T] {q : List T} {cur t : T}

/-! ## The way round the queue -/

/-- The thread the loop of `pick_next` goes to after `t`. -/
def hop (q : List T) (t : T) : T := ((q.dropWhile (· ≠ t)).tail ++ q).headD t

lemma hop_mem (hq : q ≠ []) (t : T) : hop q t ∈ q := by
  rw [hop, headD_eq_head?_getD, List.head?_append]
  cases htail : (q.dropWhile (· ≠ t)).tail with
  | nil =>
    rw [List.head?_eq_some_head hq]
    exact head_mem hq
  | cons u l =>
    refine (dropWhile_sublist (· ≠ t)).subset (mem_of_mem_tail ?_)
    rw [htail]
    exact mem_cons_self

lemma hop_getElem (hnodup : q.Nodup) {i : ℕ} (hi : q[i]? = some t) :
    q[(i + 1) % q.length]? = some (hop q t) := by
  obtain ⟨hlt, rfl⟩ := List.getElem?_eq_some_iff.mp hi
  have hidx := hnodup.idxOf_getElem i hlt
  simp only [List.idxOf, beq_eq_decide] at hidx
  have hdrop : q.dropWhile (· ≠ q[i]) = q.drop i := by
    rw [dropWhile_eq_drop_findIdx_not]
    simpa using congrArg q.drop hidx
  rw [hop, hdrop, tail_drop, headD_eq_head?_getD, List.head?_append, List.head?_drop]
  rcases lt_or_eq_of_le (succ_le_of_lt hlt) with hnext | hlast
  · rw [Nat.mod_eq_of_lt hnext, List.getElem?_eq_getElem hnext]
    rfl
  · rw [← succ_eq_add_one, hlast, mod_self, List.getElem?_eq_none le_rfl,
      List.head?_eq_getElem?, List.getElem?_eq_getElem (zero_lt_of_lt hlt)]
    rfl

/-- Within one round the loop comes to every thread of the queue. -/
lemma exists_hops (hnodup : q.Nodup) (cur : T) (ht : t ∈ q) :
    ∃ d < q.length, (hop q)^[d] (hop q cur) = t := by
  obtain ⟨i, hi⟩ := mem_iff_getElem?.mp (hop_mem (ne_nil_of_mem ht) cur)
  obtain ⟨j, hj⟩ := mem_iff_getElem?.mp ht
  have hilt := (List.getElem?_eq_some_iff.mp hi).1
  have hjlt := (List.getElem?_eq_some_iff.mp hj).1
  have hround : ∀ d, q[(i + d) % q.length]? = some ((hop q)^[d] (hop q cur)) := by
    intro d
    induction d with
    | zero => rwa [add_zero, Nat.mod_eq_of_lt hilt]
    | succ d ih =>
      rw [Function.iterate_succ_apply', ← hop_getElem hnodup ih, mod_add_mod, add_assoc]
  have hat : ∀ d, (i + d) % q.length = j → (hop q)^[d] (hop q cur) = t :=
    fun d hd => Option.some.inj (by rw [← hround, hd, hj])
  by_cases hle : i ≤ j
  · exact ⟨j - i, by omega, hat _ (by rw [Nat.add_sub_cancel' hle, Nat.mod_eq_of_lt hjlt])⟩
  · refine ⟨j + q.length - i, by omega, hat _ ?_⟩
    rw [Nat.add_sub_cancel' (by omega), Nat.add_mod_right, Nat.mod_eq_of_lt hjlt]

/-! ## One call -/

namespace Machine

variable {m : Machine P T} {p : P} {n d : ℕ}

lemma next_getD {head : T} (hhead : m.runQueue.head? = some head) (t : T) :
    (m.next t).getD head = hop m.runQueue t := by
  rw [next, hop]
  rcases m.runQueue.dropWhile (· ≠ t) with _ | ⟨a, _ | ⟨u, l⟩⟩ <;> simp [hhead]

/-- The loop takes the first thread on its way that it accepts. -/
lemma pickLoop_le {head : T} (hhead : m.runQueue.head? = some head) (hd : d < n)
    (haccepts : m.Accepts cur ((hop m.runQueue)^[d] t)) : ∃ k ≤ d,
      m.pickLoop p cur head n t = (hop m.runQueue)^[k] t ∧
        m.Accepts cur (m.pickLoop p cur head n t) := by
  induction n generalizing d t with
  | zero => exact absurd hd d.not_lt_zero
  | succ n ih =>
    rw [pickLoop, next_getD hhead]
    split_ifs with hready hcur
    · exact ⟨0, d.zero_le, rfl, .inl hready⟩
    · exact ⟨0, d.zero_le, rfl, .inr hcur⟩
    cases d with
    | zero => exact absurd haccepts (not_or.mpr ⟨hready, hcur⟩)
    | succ d =>
      obtain ⟨k, hk, htaken⟩ := ih (lt_of_succ_lt_succ hd) haccepts
      exact ⟨k + 1, succ_le_succ hk, htaken⟩

/-- A call takes a thread that it would accept, or another one on the way to it. -/
lemma pickNext_closer (hlen : m.runQueue.length ≤ maxThreads) (ht : t ∈ m.runQueue)
    (haccepts : m.Accepts cur t) (hd : d < m.runQueue.length)
    (hat : (hop m.runQueue)^[d] (hop m.runQueue cur) = t) : m.pickNext p cur = t ∨
      m.pickNext p cur ≠ cur ∧ m.Accepts cur (m.pickNext p cur) ∧
        ∃ e < d, (hop m.runQueue)^[e] (hop m.runQueue (m.pickNext p cur)) = t := by
  have hhead := List.head?_eq_some_head (ne_nil_of_mem ht)
  induction d using Nat.strong_induction_on with
  | _ d ih =>
    obtain ⟨k, hk, hpick, htaken⟩ : ∃ k ≤ d,
        m.pickNext p cur = (hop m.runQueue)^[k] (hop m.runQueue cur) ∧
          m.Accepts cur (m.pickNext p cur) := by
      rw [pickNext, hhead]
      dsimp only
      rw [next_getD hhead]
      exact pickLoop_le hhead (by omega) (hat ▸ haccepts)
    rcases lt_or_eq_of_le hk with hlt | rfl
    · obtain ⟨e, rfl⟩ : ∃ e, d = e + 1 + k := ⟨d - k - 1, by omega⟩
      rw [Function.iterate_add_apply, ← hpick, Function.iterate_succ_apply] at hat
      by_cases hback : m.pickNext p cur = cur
      · -- the way from the current thread to itself is a detour
        rcases ih e (by omega) (by omega) (hback ▸ hat) with heq | ⟨hne, -⟩
        · exact .inl heq
        · exact absurd hback hne
      · exact .inr ⟨hback, htaken, e, by omega, hat⟩
    · exact .inl (hpick.trans hat)

/-- An idle thread is only chosen when it is all that would be accepted. -/
lemma pickNext_of_idle (hnodup : m.runQueue.Nodup) (hlen : m.runQueue.length ≤ maxThreads)
    (hidle : (m.threads (m.pickNext p cur)).isIdle = true) (ht : t ∈ m.runQueue)
    (haccepts : m.Accepts cur t) : m.pickNext p cur = t := by
  obtain ⟨d, hd, hat⟩ := exists_hops hnodup cur ht
  rcases pickNext_closer (p := p) hlen ht haccepts hd hat with heq | ⟨hne, hbusy | hcur, -⟩
  · exact heq
  · exact absurd (hidle.symm.trans hbusy.1) (by decide)
  · exact absurd hcur.1 hne

lemma schedule_current [DecidableEq P] (hne : m.pickNext p (m.cpus p).current ≠ (m.cpus p).current) :
    ((m.schedule p).cpus p).current = m.pickNext p (m.cpus p).current := by
  simp [schedule, hne, switchTo, setCpu]

end Machine

open Machine

/-- On a queue that stays as it is, with `ms i` what call `i` of `schedule` on a processor finds: a
thread that is ready until it is chosen is chosen by one of as many calls as there are threads in the
queue, and runs then. An idle thread is only chosen when no other is ready, and when it is the current
one and goes on or the current one does not run. -/
theorem no_starvation [DecidableEq P] (hnodup : q.Nodup) (hlen : q.length ≤ maxThreads) (p : P) :
    (∀ t ∈ q, ∀ ms : ℕ → Machine P T, (∀ i < q.length, (ms i).runQueue = q ∧
        ((ms (i + 1)).cpus p).current = (((ms i).schedule p).cpus p).current ∧
        ((∀ j < i, (ms j).pickNext p ((ms j).cpus p).current ≠ t) →
          ((ms i).threads t).isIdle = false ∧ ((ms i).threads t).state = some .ready)) →
      ∃ i < q.length, (ms i).pickNext p ((ms i).cpus p).current = t ∧
        (((ms i).cpus p).current ≠ t → (((ms i).schedule p).cpus p).current = t)) ∧
    ∀ m : Machine P T, m.runQueue = q → ∀ cur, (m.threads (m.pickNext p cur)).isIdle = true →
      (∀ t ∈ q, (m.threads t).isIdle = false → (m.threads t).state ≠ some .ready) ∧
      (cur ∈ q → m.pickNext p cur = cur ∨ (m.threads cur).state ≠ some .running) := by
  constructor
  · intro t ht ms hcalls
    by_contra hnone
    have hnot : ∀ i < q.length, (ms i).pickNext p ((ms i).cpus p).current ≠ t :=
      fun i hi heq => hnone ⟨i, hi, heq, fun hne => (schedule_current (heq ▸ hne.symm)).trans heq⟩
    -- each call comes closer to the thread, and there are as many calls as threads
    have hway : ∀ i ≤ q.length, ∃ d, d + i < q.length ∧
        (hop q)^[d] (hop q ((ms i).cpus p).current) = t := by
      intro i hi
      induction i with
      | zero => exact exists_hops hnodup _ ht
      | succ i ih =>
        obtain ⟨d, hd, hat⟩ := ih (le_of_succ_le hi)
        obtain ⟨rfl, hcurrent, hready⟩ := hcalls i hi
        have haccepts := hready fun j hj => hnot j (by omega)
        rcases pickNext_closer (p := p) hlen ht (.inl haccepts) (by omega) hat with
          heq | ⟨hne, -, e, he, hat'⟩
        · exact absurd heq (hnot i hi)
        · exact ⟨e, by omega, by rwa [hcurrent, schedule_current hne]⟩
    obtain ⟨d, hd, -⟩ := hway q.length le_rfl
    omega
  · rintro m rfl cur hidle
    refine ⟨fun t ht hbusy hready => ?_, fun hcur => ?_⟩
    · rw [pickNext_of_idle hnodup hlen hidle ht (.inl ⟨hbusy, hready⟩), hbusy] at hidle
      cases hidle
    · by_cases hrunning : (m.threads cur).state = some .running
      · exact .inl (pickNext_of_idle hnodup hlen hidle hcur (.inr ⟨rfl, hrunning⟩))
      · exact .inr hrunning

/-- One processor on its idle thread, and a thread that is ready. -/
def oneReady : Machine Unit Bool where
  smp := false
  klock := none
  runQueue := [false, true]
  threads t := ⟨some (if t then .ready else .running), .kernel, .none, 0, !t, t⟩
  rsp t := (.user, ⟨t, false, false, none⟩)
  cpus _ := ⟨false, false, .kernel, ⟨false, true, false, none⟩⟩

theorem no_starvation_oneReady : ∃ i < 2, let m := (·.schedule ())^[i] oneReady
    m.pickNext () (m.cpus ()).current = true ∧
      ((m.cpus ()).current ≠ true → ((m.schedule ()).cpus ()).current = true) :=
  (no_starvation (q := [false, true]) (by decide) (by decide) ()).1 true (by decide) _ (by decide)

/-- A processor that idles goes on with its idle thread. -/
theorem idle_goes_on : ({ oneReady with runQueue := [false] }).pickNext () false = false ∧
    (oneReady.threads false).isIdle = true ∧ (oneReady.threads false).state = some .running := by
  decide

end Wos.Proc
