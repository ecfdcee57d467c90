import Mathlib.Data.Fin.Basic
import Mathlib.Logic.Relation

/-!
# Who is inside the network stack

Every network system call runs between `net_claim` and `net_release` of `kernel/net/net.c`. Inside,
`net_poll` enables interrupts and gives the kernel lock up for a moment (`klock_pause` of
`kernel/arch/smp.c`), so other threads run meanwhile: on other processors, or on the same one when
the timer preempts. `net_claim` sets a flag, and while it finds the flag set it calls `klock_pause`
and tries again; it stops trying when `klock_pause` reports that there was no lock to give up.

The model follows each thread through a network call and through the timer interrupt that may
preempt it, at the granularity of what other processors can see. A switch to another thread, once
the lock is released in `schedule`, is taken to be one step, and so are taking the lock and writing
its owner.

The flag does not keep threads apart. With one processor `klock_pause` always reports that there was
no lock, and a thread that finds the flag set walks in. With more, `klock_acquire_at` reads the
number of its processor before it waits for the lock, and `net_poll` waits with interrupts enabled:
a thread that is moved to another processor meanwhile takes the lock in the name of the first one.
Whatever runs there then believes that it holds the lock, and gives up what it does not have.

## Main definitions

* `Klock`, `NetCode`, `TimerFrame`, `NetThread`, `NetKernel`: the lock, and where each thread is;
* `ThreadStep`, `NetStep`: what it does next, and how processors change threads.

## Main results

* `both_inside`: any two threads can be inside together, on any number of processors;
* `claim_exclusive_iff`: at most one thread is ever inside, exactly when there are no two threads, or
  no processor to run them.
-/

namespace Wos.Net

open Function Option Relation

variable {n : ℕ} {T : Type*}

/-! ## Threads -/

/-- The kernel lock: whether it is locked, and `owner`, the processor that it is locked for. -/
@[ext]
structure Klock (n : ℕ) where
  locked : Bool
  owner : Option (Fin n)

namespace Klock

/-- After `klock_release`. -/
def released : Klock n := ⟨false, none⟩

/-- After `klock_acquire_at`, on behalf of the processor that it has read. -/
def acquired (me : Fin n) : Klock n := ⟨true, some me⟩

/-- `klock_held_here`. -/
def heldHere (k : Klock n) (p : Fin n) : Bool := k.owner = some p

end Klock

/-- Where a thread is in a network call. -/
inductive NetCode (n : ℕ)
  /-- In ring 3. -/
  | user
  /-- In `interrupt_dispatch`, in `klock_enter`. -/
  | entering
  /-- In `net_claim`, about to test the flag. -/
  | claim
  /-- In `net_claim`, in `klock_pause`, with the lock given up, and with the processor that
  `klock_acquire_at` has read. -/
  | claimPause (me : Option (Fin n))
  /-- Between `net_claim` and `net_release`. -/
  | inside
  /-- There too, in the `klock_pause` of `net_poll`. -/
  | pollPause (me : Option (Fin n))
  /-- Past `net_release`, about to call `klock_leave` and return to ring 3. -/
  | leaving

/-- Where the timer interrupt is that hit a thread. -/
inductive TimerFrame
  | none
  /-- In `klock_enter`. -/
  | entering
  /-- In `sched_tick`; whether `klock_enter` took the lock. -/
  | ticking (took : Bool)
  /-- In `schedule`, switched away; whether the lock was held there. -/
  | switched (held took : Bool)
  /-- In `schedule`, switched back, about to take the lock again if it was held. -/
  | resuming (held took : Bool)
  /-- About to call `klock_leave`. -/
  | ending (took : Bool)

/-- A thread. -/
structure NetThread (n : ℕ) where
  code : NetCode n
  /-- Interrupts are enabled, in the code that the timer may hit. -/
  intr : Bool
  /-- Whether the `klock_enter` of the system call took the lock. -/
  took : Bool
  frame : TimerFrame

/-- The thread is between its `net_claim` and its `net_release`. -/
def NetThread.Inside (th : NetThread n) : Prop := th.code = .inside ∨ ∃ me, th.code = .pollPause me

/-- A thread that has not run yet. -/
def NetThread.new : NetThread n := ⟨.user, true, false, .none⟩

/-- `n` processors and what they share. -/
structure NetKernel (n : ℕ) (T : Type*) where
  klock : Klock n
  /-- `in_use`. -/
  inUse : Bool
  /-- The thread each processor runs, if it is not idle. -/
  running : Fin n → Option T
  threads : T → NetThread n

/-! ## Steps -/

/-- What the thread that processor `p` runs may do next: to the lock, the flag and itself. -/
inductive ThreadStep (p : Fin n) :
    Klock n → Bool → NetThread n → Klock n → Bool → NetThread n → Prop
  /-- A network system call. -/
  | trap {k inUse intr took} : ThreadStep p k inUse ⟨.user, intr, took, .none⟩
      k inUse ⟨.entering, false, took, .none⟩
  /-- `klock_enter` with no lock to take, or one that it finds its own. -/
  | enterOn {k inUse intr took} : n < 2 ∨ k.heldHere p = true →
      ThreadStep p k inUse ⟨.entering, intr, took, .none⟩ k inUse ⟨.claim, intr, false, .none⟩
  | enter {k inUse intr took} : 2 ≤ n → k.heldHere p = false → k.locked = false →
      ThreadStep p k inUse ⟨.entering, intr, took, .none⟩
        (.acquired p) inUse ⟨.claim, intr, true, .none⟩
  /-- `__atomic_test_and_set` finds the flag clear. -/
  | claim {k intr took} : ThreadStep p k false ⟨.claim, intr, took, .none⟩
      k true ⟨.inside, intr, took, .none⟩
  /-- It finds the flag set, and `klock_pause` finds the lock its own. -/
  | pause {k intr took} : 2 ≤ n → k.heldHere p = true →
      ThreadStep p k true ⟨.claim, intr, took, .none⟩
      .released true ⟨.claimPause none, intr, took, .none⟩
  /-- It finds the flag set, and `klock_pause` returns `false`. -/
  | giveUp {k intr took} : n < 2 ∨ k.heldHere p = false →
      ThreadStep p k true ⟨.claim, intr, took, .none⟩
      k true ⟨.inside, intr, took, .none⟩
  /-- `klock_acquire_at` reads the number of the processor. -/
  | claimRead {k inUse intr took} : ThreadStep p k inUse ⟨.claimPause none, intr, took, .none⟩
      k inUse ⟨.claimPause (some p), intr, took, .none⟩
  | again {k inUse intr took me} : k.locked = false →
      ThreadStep p k inUse ⟨.claimPause (some me), intr, took, .none⟩
        (.acquired me) inUse ⟨.claim, intr, took, .none⟩
  /-- `net_poll`, where `klock_pause` finds the lock its own. -/
  | poll {k inUse intr took} : 2 ≤ n → k.heldHere p = true →
      ThreadStep p k inUse ⟨.inside, intr, took, .none⟩
      .released inUse ⟨.pollPause none, true, took, .none⟩
  /-- `net_poll`, where `klock_pause` does nothing. -/
  | pollOn {k inUse intr took} : n < 2 ∨ k.heldHere p = false →
      ThreadStep p k inUse ⟨.inside, intr, took, .none⟩
      k inUse ⟨.inside, true, took, .none⟩
  | pollRead {k inUse intr took} : ThreadStep p k inUse ⟨.pollPause none, intr, took, .none⟩
      k inUse ⟨.pollPause (some p), intr, took, .none⟩
  | polled {k inUse intr took me} : k.locked = false →
      ThreadStep p k inUse ⟨.pollPause (some me), intr, took, .none⟩
        (.acquired me) inUse ⟨.inside, intr, took, .none⟩
  | release {k inUse intr took} : ThreadStep p k inUse ⟨.inside, intr, took, .none⟩
      k false ⟨.leaving, intr, took, .none⟩
  | leave {k inUse intr took} : ThreadStep p k inUse ⟨.leaving, intr, took, .none⟩
      (if took then .released else k) inUse ⟨.user, true, took, .none⟩
  /-- The timer, in ring 3 or where interrupts are enabled. -/
  | timer {k inUse code intr took} : code = .user ∨ intr = true →
      ThreadStep p k inUse ⟨code, intr, took, .none⟩ k inUse ⟨code, intr, took, .entering⟩
  | tickOn {k inUse code intr took} : n < 2 ∨ k.heldHere p = true →
      ThreadStep p k inUse ⟨code, intr, took, .entering⟩
        k inUse ⟨code, intr, took, .ticking false⟩
  | tick {k inUse code intr took} : 2 ≤ n → k.heldHere p = false → k.locked = false →
      ThreadStep p k inUse ⟨code, intr, took, .entering⟩
        (.acquired p) inUse ⟨code, intr, took, .ticking true⟩
  /-- `schedule` finds nothing else to run. -/
  | stay {k inUse code intr took tick} : ThreadStep p k inUse ⟨code, intr, took, .ticking tick⟩
      k inUse ⟨code, intr, took, .ending tick⟩
  | resumeOn {k inUse code intr took tick} :
      ThreadStep p k inUse ⟨code, intr, took, .resuming false tick⟩
        k inUse ⟨code, intr, took, .ending tick⟩
  | resume {k inUse code intr took tick} : k.locked = false →
      ThreadStep p k inUse ⟨code, intr, took, .resuming true tick⟩
        (.acquired p) inUse ⟨code, intr, took, .ending tick⟩
  | endTick {k inUse code intr took tick} :
      ThreadStep p k inUse ⟨code, intr, took, .ending tick⟩
        (if tick then .released else k) inUse ⟨code, intr, took, .none⟩

/-- A thread that a processor may switch to: one that was switched away from, or a new one. -/
def NetThread.Ready (th : NetThread n) : Prop :=
  (∃ held tick, th.frame = .switched held tick) ∨ (th.frame = .none ∧ th.code = .user)

/-- A thread on a processor again. -/
def NetThread.back (th : NetThread n) : NetThread n :=
  match th.frame with
  | .switched held tick => { th with frame := .resuming held tick }
  | _ => th

/-- One step of the machine. -/
inductive NetStep [DecidableEq T] : NetKernel n T → NetKernel n T → Prop
  | act {k : NetKernel n T} {p : Fin n} {t : T} {klock inUse th} : k.running p = some t →
      ThreadStep p k.klock k.inUse (k.threads t) klock inUse th →
      NetStep k ⟨klock, inUse, k.running, update k.threads t th⟩
  /-- `schedule` leaves a thread and picks another, or the idle one. -/
  | switch {k : NetKernel n T} {p : Fin n} {t : T} {tick : Bool} (next : Option T) :
      k.running p = some t → (k.threads t).frame = .ticking tick →
      (∀ t', next = some t' → t' ≠ t ∧ (∀ p, k.running p ≠ some t') ∧ (k.threads t').Ready) →
      NetStep k
        { k with
          klock := if k.klock.heldHere p then .released else k.klock
          running := update k.running p next
          threads := fun t' =>
            if t' = t then { k.threads t with frame := .switched (k.klock.heldHere p) tick }
            else if next = some t' then (k.threads t').back else k.threads t' }
  /-- An idle processor takes the lock, picks a thread and gives the lock up. -/
  | dispatch {k : NetKernel n T} {p : Fin n} (t : T) : k.running p = none →
      (2 ≤ n → k.klock.locked = false) → (∀ p, k.running p ≠ some t) → (k.threads t).Ready →
      NetStep k
        { k with
          running := update k.running p (some t)
          threads := update k.threads t (k.threads t).back }

/-- The machine at boot: every processor idle, every thread about to run for the first time. -/
def NetKernel.boot (n : ℕ) (T : Type*) : NetKernel n T :=
  ⟨.released, false, fun _ => none, fun _ => .new⟩

/-- No two threads are inside the network stack at the same time. -/
def NetKernel.OneInside (k : NetKernel n T) : Prop :=
  ∀ t t', (k.threads t).Inside → (k.threads t').Inside → t = t'

/-! ## Two threads inside -/

section Runs

/-- Some steps of the thread that processor `p` runs, with the lock and the flag. -/
def ThreadRun (p : Fin n) : Klock n × Bool × NetThread n → Klock n × Bool × NetThread n → Prop :=
  ReflTransGen fun x y => ThreadStep p x.1 x.2.1 x.2.2 y.1 y.2.1 y.2.2

variable [DecidableEq T] (p q : Fin n) (a b : T)

/-- A state in which at most processors `p` and `q` and threads `a` and `b` have done something. -/
def scene (runsP runsQ : Option T) (k : Klock n) (inUse : Bool) (thA thB : NetThread n) :
    NetKernel n T :=
  ⟨k, inUse, fun r => if r = p then runsP else if r = q then runsQ else none,
    fun t => if t = a then thA else if t = b then thB else .new⟩

variable {p q a b} {runsP runsQ : Option T} {k k' : Klock n} {inUse inUse' : Bool}
  {thA thA' thB thB' : NetThread n}

/-- A run of thread `a` is a run of the machine. -/
lemma scene_runA {r : Fin n}
    (hr : (scene p q a b runsP runsQ k inUse thA thB).running r = some a)
    (hrun : ThreadRun r (k, inUse, thA) (k', inUse', thA')) :
    ReflTransGen NetStep (scene p q a b runsP runsQ k inUse thA thB)
      (scene p q a b runsP runsQ k' inUse' thA' thB) := by
  suffices ∀ x : Klock n × Bool × NetThread n, ThreadRun r (k, inUse, thA) x →
      ReflTransGen NetStep (scene p q a b runsP runsQ k inUse thA thB)
        (scene p q a b runsP runsQ x.1 x.2.1 x.2.2 thB) from this _ hrun
  intro x hx
  induction hx with
  | refl => exact .refl
  | @tail x y _ hstep ih =>
    refine ih.tail ?_
    have hact := NetStep.act (k := scene p q a b runsP runsQ x.1 x.2.1 x.2.2 thB) hr
      (by simpa [scene] using hstep)
    convert hact using 1
    simp only [scene]
    congr 1
    funext t
    simp only [update_apply]
    split_ifs <;> rfl

lemma scene_swap (hne : a ≠ b) : scene p q a b runsP runsQ k inUse thA thB =
    scene p q b a runsP runsQ k inUse thB thA := by
  simp only [scene]
  congr 1
  funext t
  split_ifs <;> simp_all

lemma scene_runB (hne : a ≠ b) {r : Fin n}
    (hr : (scene p q a b runsP runsQ k inUse thA thB).running r = some b)
    (hrun : ThreadRun r (k, inUse, thB) (k', inUse', thB')) :
    ReflTransGen NetStep (scene p q a b runsP runsQ k inUse thA thB)
      (scene p q a b runsP runsQ k' inUse' thA thB') := by
  rw [scene_swap hne, scene_swap hne]
  exact scene_runA hr hrun

lemma boot_eq_scene : NetKernel.boot n T = scene p q a b none none .released false .new .new := by
  simp [NetKernel.boot, scene]

/-- An idle processor picks the first thread. -/
lemma scene_dispatch {r : Fin n} {runsP' runsQ' : Option T}
    (hidle : (scene p q a b runsP runsQ k inUse thA thB).running r = none)
    (hfree : 2 ≤ n → k.locked = false)
    (hoff : ∀ s, (scene p q a b runsP runsQ k inUse thA thB).running s ≠ some a)
    (hready : thA.Ready) (hruns : ∀ s, (scene p q a b runsP' runsQ' k inUse thA thB).running s =
      if s = r then some a else (scene p q a b runsP runsQ k inUse thA thB).running s) :
    NetStep (scene p q a b runsP runsQ k inUse thA thB)
      (scene p q a b runsP' runsQ' k inUse thA.back thB) := by
  have hstep := NetStep.dispatch (k := scene p q a b runsP runsQ k inUse thA thB) (p := r) a hidle
    hfree hoff (by simpa [scene] using hready)
  convert hstep using 1
  simp only [scene] at hruns ⊢
  congr 1
  · funext s
    rw [hruns, update_apply]
  · funext t
    rw [update_apply]
    split_ifs <;> rfl

/-- The timer switches processor `p` from the first thread to the second. -/
lemma scene_switch (hne : a ≠ b) {tick : Bool} (htick : thA.frame = .ticking tick)
    (hready : thB.Ready) (hq : runsQ ≠ some b) :
    NetStep (scene p q a b (some a) runsQ k inUse thA thB)
      (scene p q a b (some b) runsQ (if k.heldHere p then .released else k) inUse
        { thA with frame := .switched (k.heldHere p) tick } thB.back) := by
  have hframe : ((scene p q a b (some a) runsQ k inUse thA thB).threads a).frame = .ticking tick := by
    simpa [scene] using htick
  have hstep := NetStep.switch (p := p) (some b) (by simp [scene]) hframe ?_
  · convert hstep using 1
    simp only [scene]
    congr 1
    · funext s
      rw [update_apply]
      split_ifs <;> rfl
    · funext t
      split_ifs <;> simp_all
  · rintro t ⟨⟩
    refine ⟨hne.symm, fun s => ?_, by simpa [scene, hne.symm] using hready⟩
    simp only [scene]
    split_ifs <;> simp_all

end Runs

section OneProcessor

variable {p : Fin n} (hn : n < 2)

include hn

/-- A thread alone in the stack, on the only processor, that the timer interrupts in `net_poll`. -/
lemma threadRun_polling_one : ThreadRun p (.released, false, .new)
    (.released, true, ⟨.inside, true, false, .ticking false⟩) := by
  apply ReflTransGen.head (b := (.released, false, ⟨.entering, false, false, .none⟩)) .trap
  apply ReflTransGen.head (b := (.released, false, ⟨.claim, false, false, .none⟩))
    (.enterOn (.inl hn))
  apply ReflTransGen.head (b := (.released, true, ⟨.inside, false, false, .none⟩)) .claim
  apply ReflTransGen.head (b := (.released, true, ⟨.inside, true, false, .none⟩))
    (.pollOn (.inl hn))
  apply ReflTransGen.head (b := (.released, true, ⟨.inside, true, false, .entering⟩))
    (.timer (.inr rfl))
  exact .single (.tickOn (.inl hn))

/-- A thread that finds the flag set, on the only processor. -/
lemma threadRun_giveUp_one : ThreadRun p (.released, true, .new)
    (.released, true, ⟨.inside, false, false, .none⟩) := by
  apply ReflTransGen.head (b := (.released, true, ⟨.entering, false, false, .none⟩)) .trap
  apply ReflTransGen.head (b := (.released, true, ⟨.claim, false, false, .none⟩))
    (.enterOn (.inl hn))
  exact .single (.giveUp (.inl hn))

end OneProcessor

section MoreProcessors

variable {p q : Fin n} (hn : 2 ≤ n)

lemma heldHere_acquired : (Klock.acquired p).heldHere p = true := by
  simp [Klock.heldHere, Klock.acquired]

lemma heldHere_acquired_of_ne (hpq : p ≠ q) : (Klock.acquired q).heldHere p = false := by
  simp [Klock.heldHere, Klock.acquired, hpq.symm]

include hn

/-- A thread alone in the stack that the timer interrupts in `klock_pause`, when it has read the
number of its processor. -/
lemma threadRun_polling : ThreadRun p (.released, false, .new)
    (.acquired p, true, ⟨.pollPause (some p), true, true, .ticking true⟩) := by
  apply ReflTransGen.head (b := (.released, false, ⟨.entering, false, false, .none⟩)) .trap
  apply ReflTransGen.head (b := (.acquired p, false, ⟨.claim, false, true, .none⟩))
    (.enter hn rfl rfl)
  apply ReflTransGen.head (b := (.acquired p, true, ⟨.inside, false, true, .none⟩)) .claim
  apply ReflTransGen.head (b := (.released, true, ⟨.pollPause none, true, true, .none⟩))
    (.poll hn heldHere_acquired)
  apply ReflTransGen.head (b := (.released, true, ⟨.pollPause (some p), true, true, .none⟩))
    .pollRead
  apply ReflTransGen.head (b := (.released, true, ⟨.pollPause (some p), true, true, .entering⟩))
    (.timer (.inr rfl))
  exact .single (.tick hn rfl rfl)

omit hn in
/-- On processor `q` the thread takes the lock in the name of `p`. -/
lemma threadRun_moved :
    ThreadRun q (.released, true, ⟨.pollPause (some p), true, true, .resuming true true⟩)
      (.acquired p, true, ⟨.inside, true, true, .none⟩) := by
  apply ReflTransGen.head
    (b := (.acquired q, true, ⟨.pollPause (some p), true, true, .ending true⟩)) (.resume rfl)
  apply ReflTransGen.head (b := (.released, true, ⟨.pollPause (some p), true, true, .none⟩))
    .endTick
  exact .single (.polled rfl)

/-- A thread on processor `p` finds that lock its own, and gives it up and takes it in `net_claim`. -/
lemma threadRun_intruding : ThreadRun p (.acquired p, true, .new)
    (.acquired p, true, ⟨.claim, false, false, .none⟩) := by
  apply ReflTransGen.head (b := (.acquired p, true, ⟨.entering, false, false, .none⟩)) .trap
  apply ReflTransGen.head (b := (.acquired p, true, ⟨.claim, false, false, .none⟩))
    (.enterOn (.inr heldHere_acquired))
  apply ReflTransGen.head (b := (.released, true, ⟨.claimPause none, false, false, .none⟩))
    (.pause hn heldHere_acquired)
  apply ReflTransGen.head (b := (.released, true, ⟨.claimPause (some p), false, false, .none⟩))
    .claimRead
  exact .single (.again rfl)

/-- The first thread gives up that lock as its own, and makes another network call. -/
lemma threadRun_returning :
    ThreadRun q (.acquired p, true, ⟨.inside, true, true, .none⟩)
      (.acquired q, true, ⟨.inside, false, true, .none⟩) := by
  apply ReflTransGen.head (b := (.acquired p, false, ⟨.leaving, true, true, .none⟩)) .release
  apply ReflTransGen.head (b := (.released, false, ⟨.user, true, true, .none⟩)) .leave
  apply ReflTransGen.head (b := (.released, false, ⟨.entering, false, true, .none⟩)) .trap
  apply ReflTransGen.head (b := (.acquired q, false, ⟨.claim, false, true, .none⟩))
    (.enter hn rfl rfl)
  exact .single .claim

omit hn in
/-- The second finds the flag set, and a lock that is not its own. -/
lemma threadRun_giveUp (hpq : p ≠ q) :
    ThreadRun p (.acquired q, true, ⟨.claim, false, false, .none⟩)
      (.acquired q, true, ⟨.inside, false, false, .none⟩) :=
  .single (.giveUp (.inr (heldHere_acquired_of_ne hpq)))

end MoreProcessors

section Theorem

variable [DecidableEq T] {p q : Fin n} {a b : T}

lemma inside_scene {runsP runsQ : Option T} {k : Klock n} {inUse : Bool} {thA thB : NetThread n}
    (hne : a ≠ b) (hA : thA.Inside) (hB : thB.Inside) :
    ((scene p q a b runsP runsQ k inUse thA thB).threads a).Inside ∧
      ((scene p q a b runsP runsQ k inUse thA thB).threads b).Inside := by
  simp only [scene, if_true, if_neg hne.symm]
  exact ⟨hA, hB⟩

/-- One processor: the timer switches to the second thread, which walks in. -/
lemma both_inside_one (hn : n < 2) (p : Fin n) (hne : a ≠ b) :
    ∃ k, ReflTransGen NetStep (NetKernel.boot n T) k ∧
      (k.threads a).Inside ∧ (k.threads b).Inside := by
  have hstart : NetStep (NetKernel.boot n T)
      (scene p p a b (some a) none .released false .new .new) := by
    rw [boot_eq_scene (p := p) (q := p) (a := a) (b := b)]
    exact scene_dispatch (r := p) (by simp [scene]) (by omega) (by simp [scene])
      (.inr ⟨rfl, rfl⟩) (by simp [scene])
  have hpolling : ReflTransGen NetStep (scene p p a b (some a) none .released false .new .new)
      (scene p p a b (some a) none .released true ⟨.inside, true, false, .ticking false⟩ .new) :=
    scene_runA (r := p) (by simp [scene]) (threadRun_polling_one hn)
  have hswitch : NetStep
      (scene p p a b (some a) none .released true ⟨.inside, true, false, .ticking false⟩ .new)
      (scene p p a b (some b) none .released true ⟨.inside, true, false, .switched false false⟩
        .new) :=
    scene_switch hne rfl (.inr ⟨rfl, rfl⟩) (by simp)
  have hgiveUp : ReflTransGen NetStep
      (scene p p a b (some b) none .released true ⟨.inside, true, false, .switched false false⟩
        .new)
      (scene p p a b (some b) none .released true ⟨.inside, true, false, .switched false false⟩
        ⟨.inside, false, false, .none⟩) :=
    scene_runB (r := p) hne (by simp [scene]) (threadRun_giveUp_one hn)
  exact ⟨_, ((ReflTransGen.head hstart hpolling).tail hswitch).trans hgiveUp,
    inside_scene hne (.inl rfl) (.inl rfl)⟩

/-- More processors: the first thread is moved from `p` to `q` while it waits for the lock, and the
second runs on `p`. -/
lemma both_inside_more (hn : 2 ≤ n) (hpq : p ≠ q) (hne : a ≠ b) :
    ∃ k, ReflTransGen NetStep (NetKernel.boot n T) k ∧
      (k.threads a).Inside ∧ (k.threads b).Inside := by
  have hstart : NetStep (NetKernel.boot n T)
      (scene p q a b (some a) none .released false .new .new) := by
    rw [boot_eq_scene (p := p) (q := q) (a := a) (b := b)]
    exact scene_dispatch (r := p) (by simp [scene]) (fun _ => rfl) (by simp [scene])
      (.inr ⟨rfl, rfl⟩) (by simp [scene])
  have hpolling : ReflTransGen NetStep (scene p q a b (some a) none .released false .new .new)
      (scene p q a b (some a) none (.acquired p) true
        ⟨.pollPause (some p), true, true, .ticking true⟩ .new) :=
    scene_runA (r := p) (by simp [scene]) (threadRun_polling hn)
  have hswitch : NetStep
      (scene p q a b (some a) none (.acquired p) true
        ⟨.pollPause (some p), true, true, .ticking true⟩ .new)
      (scene p q a b (some b) none .released true
        ⟨.pollPause (some p), true, true, .switched true true⟩ .new) := by
    have hstep : NetStep
        (scene p q a b (some a) none (.acquired p) true
          ⟨.pollPause (some p), true, true, .ticking true⟩ .new) _ :=
      scene_switch hne rfl (.inr ⟨rfl, rfl⟩) (by simp)
    rwa [heldHere_acquired] at hstep
  have hmove : NetStep
      (scene p q a b (some b) none .released true
        ⟨.pollPause (some p), true, true, .switched true true⟩ .new)
      (scene p q a b (some b) (some a) .released true
        ⟨.pollPause (some p), true, true, .resuming true true⟩ .new) := by
    refine scene_dispatch (r := q) (by simp [scene, hpq.symm]) (fun _ => rfl) (fun s => ?_)
      (.inl ⟨true, true, rfl⟩) (fun s => ?_)
    · simp only [scene]
      split_ifs <;> simp [hne.symm]
    · simp only [scene]
      split_ifs <;> simp_all
  have hmoved : ReflTransGen NetStep
      (scene p q a b (some b) (some a) .released true
        ⟨.pollPause (some p), true, true, .resuming true true⟩ .new)
      (scene p q a b (some b) (some a) (.acquired p) true ⟨.inside, true, true, .none⟩ .new) :=
    scene_runA (r := q) (by simp [scene, hpq.symm]) threadRun_moved
  have hintruding : ReflTransGen NetStep
      (scene p q a b (some b) (some a) (.acquired p) true ⟨.inside, true, true, .none⟩ .new)
      (scene p q a b (some b) (some a) (.acquired p) true ⟨.inside, true, true, .none⟩
        ⟨.claim, false, false, .none⟩) :=
    scene_runB (r := p) hne (by simp [scene]) (threadRun_intruding hn)
  have hreturning : ReflTransGen NetStep
      (scene p q a b (some b) (some a) (.acquired p) true ⟨.inside, true, true, .none⟩
        ⟨.claim, false, false, .none⟩)
      (scene p q a b (some b) (some a) (.acquired q) true ⟨.inside, false, true, .none⟩
        ⟨.claim, false, false, .none⟩) :=
    scene_runA (r := q) (by simp [scene, hpq.symm]) (threadRun_returning hn)
  have hgiveUp : ReflTransGen NetStep
      (scene p q a b (some b) (some a) (.acquired q) true ⟨.inside, false, true, .none⟩
        ⟨.claim, false, false, .none⟩)
      (scene p q a b (some b) (some a) (.acquired q) true ⟨.inside, false, true, .none⟩
        ⟨.inside, false, false, .none⟩) :=
    scene_runB (r := p) hne (by simp [scene]) (threadRun_giveUp hpq)
  have hpolled := ((ReflTransGen.head hstart hpolling).tail hswitch).tail hmove
  exact ⟨_, (((hpolled.trans hmoved).trans hintruding).trans hreturning).trans hgiveUp,
    inside_scene hne (.inl rfl) (.inl rfl)⟩

/-- Any two threads can be inside together, on any number of processors. -/
lemma both_inside (p : Fin n) (hne : a ≠ b) :
    ∃ k, ReflTransGen NetStep (NetKernel.boot n T) k ∧
      (k.threads a).Inside ∧ (k.threads b).Inside := by
  obtain hone | htwo := Nat.lt_or_ge n 2
  · exact both_inside_one hone p hne
  · exact both_inside_more (p := ⟨0, by omega⟩) (q := ⟨1, by omega⟩) htwo (by simp) hne

/-- Without a processor nothing happens. -/
lemma NetStep.processor {k k' : NetKernel n T} (hstep : NetStep k k') : 0 < n := by
  cases hstep with
  | @act p => exact p.pos
  | @switch p => exact p.pos
  | @dispatch p => exact p.pos

end Theorem

/-- At most one thread is ever between its `net_claim` and its `net_release`, exactly when there are
no two threads, or no processor. -/
theorem claim_exclusive_iff (n : ℕ) (T : Type*) [DecidableEq T] :
    (∀ k, ReflTransGen NetStep (NetKernel.boot n T) k → k.OneInside) ↔
      n = 0 ∨ Subsingleton T := by
  constructor
  · intro hall
    refine or_iff_not_imp_left.mpr fun hn => ⟨fun a b => ?_⟩
    by_contra hne
    obtain ⟨k, hrun, hA, hB⟩ := both_inside ⟨0, Nat.pos_of_ne_zero hn⟩ hne
    exact hne (hall k hrun a b hA hB)
  · rintro (hn | hone) k hrun t t' ht ht'
    · -- the machine stays as it booted
      obtain rfl | ⟨_, hstep, -⟩ := hrun.cases_head
      · rcases ht with h | ⟨_, h⟩ <;> cases h
      · exact absurd hstep.processor (by omega)
    · exact Subsingleton.elim t t'

/-- Two threads, on one processor and on two. -/
theorem not_exclusive_twoThreads :
    (¬ ∀ k, ReflTransGen NetStep (NetKernel.boot 1 Bool) k → k.OneInside) ∧
      ¬ ∀ k, ReflTransGen NetStep (NetKernel.boot 2 Bool) k → k.OneInside := by
  refine ⟨fun hall => ?_, fun hall => ?_⟩
  · obtain ⟨k, hrun, h1, h2⟩ := both_inside (n := 1) 0 Bool.false_ne_true
    exact Bool.false_ne_true (hall k hrun false true h1 h2)
  · obtain ⟨k, hrun, h1, h2⟩ := both_inside (n := 2) 0 Bool.false_ne_true
    exact Bool.false_ne_true (hall k hrun false true h1 h2)

end Wos.Net
