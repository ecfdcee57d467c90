import Mathlib.Data.List.FinRange
import Wos.Proc.Table

/-!
# The scheduler on several processors

`kernel/proc/sched.c` with the kernel lock of `kernel/arch/smp.c` and the parts of
`kernel/proc/proc.c` that make and take down threads. Every processor picks from one circular run
queue; a thread is taken by setting its state under the kernel lock. `schedule` records its decision
with the lock held, then gives the lock up, and only then does `switch_context` save the `rsp` of the
thread it leaves and adopt that of the thread it resumes.

The steps of a processor are the ones other processors can see between: taking the lock, what is
done while it is held, giving it up inside `schedule`, the switch, and taking it again. On a single
processor there is no lock.

Interrupts and system calls run with interrupts disabled. The idle threads do not: the loop of
`smp_ap_entry` takes the lock and calls `schedule`, and the boot thread, which is the idle thread of
its processor, makes processes, waits for them in `proc_wait` without the lock, and reaps them. The
timer may hit such code in the kernel, and `sched_tick` then calls `schedule` on top of it. What it
leaves is the thread that is current by then, whosever stack that is on.

Left out are which process reaps a thread (any processor in the kernel may take down any zombie),
the moments in `schedule` before its decision is recorded at which the timer may hit, and the waits
of the drivers, in which `klock_pause` gives the lock up.

## Main definitions

* `Thread`, `Place`, `Frame`, `Cpu`, `Machine`;
* `Machine.pickNext`, `Machine.schedule`, `Machine.schedBlock`, `Machine.schedWake`,
  `Machine.wakeExpired`, `Machine.switchContext`, `Machine.threadExit`, `Machine.teardownThread`: the
  functions;
* `Machine.booted`, `schedStep`: the machine they make up.
-/

namespace Wos.Proc

/-- `MAX_THREADS`. -/
def maxThreads : ℕ := 64

/-- `wait_reason_t`. -/
inductive WaitReason
  | none
  | input
  | child
  | pipe
  | time
  | socket
  deriving DecidableEq

/-- `thread_t`. -/
structure Thread where
  /-- Its state; `none` is `THREAD_UNUSED`. -/
  state : Option ThreadState
  proc : Ref
  waitReason : WaitReason
  wakeAt : UInt32
  isIdle : Bool
  /-- Its `rsp` was saved, or its stack primed, since it was last resumed. -/
  rspSaved : Bool
  deriving DecidableEq

/-- Where a processor is. -/
inductive Place (T : Type*)
  /-- In ring 3, or in the loop of an idle thread. -/
  | user
  /-- In the kernel. -/
  | kernel
  /-- In `schedule`, with the decision to leave `prev` for `next` recorded. -/
  | decided (prev next : T)
  /-- In `schedule`, past `klock_release` and not yet off its stack; whether the lock was held. -/
  | switching (prev next : T) (held : Bool)
  /-- In `schedule`, on the stack of the thread it resumed, about to take the lock again if it was
  held. -/
  | resumed (held : Bool)
  deriving DecidableEq

/-- The code a processor runs. -/
structure Frame (T : Type*) where
  /-- The thread whose kernel stack it is on. -/
  stack : T
  /-- Interrupts are enabled in the kernel. -/
  intr : Bool
  /-- What `klock_enter` returned: the lock was taken. -/
  took : Bool
  /-- Where an interrupt in the kernel hit, and what `klock_enter` had returned there. -/
  outer : Option (Place T × Bool)
  deriving DecidableEq

/-- `smpcpu_t`, with where the processor is. -/
structure Cpu (T : Type*) where
  current : T
  idle : T
  place : Place T
  frame : Frame T

/-- What the processors `P` share, with threads named by `T`. -/
structure Machine (P T : Type*) where
  /-- `cpu_count` is more than one. -/
  smp : Bool
  /-- The owner of the kernel lock. -/
  klock : Option P
  /-- The circular run queue, from the thread `run_queue` points to. -/
  runQueue : List T
  threads : T → Thread
  /-- What lies at the `rsp` of each thread. -/
  rsp : T → Place T × Frame T
  cpus : P → Cpu T

namespace Machine

variable {P T : Type*} [DecidableEq P] [DecidableEq T]

/-- One thread changed. -/
def setThread (m : Machine P T) (t : T) (f : Thread → Thread) : Machine P T :=
  { m with threads := Function.update m.threads t (f (m.threads t)) }

/-- One processor changed. -/
def setCpu (m : Machine P T) (p : P) (f : Cpu T → Cpu T) : Machine P T :=
  { m with cpus := Function.update m.cpus p (f (m.cpus p)) }

/-! ## The lock -/

/-- `klock_enter` takes the lock. -/
def klockTakes (m : Machine P T) (p : P) : Bool := m.smp && m.klock ≠ some p

/-- `klock_enter` does not have to wait. -/
def KlockFree (m : Machine P T) (p : P) : Prop := m.klockTakes p = true → m.klock = none

instance (m : Machine P T) (p : P) : Decidable (m.KlockFree p) := inferInstanceAs (Decidable (_ → _))

/-- The lock once `klock_enter`, or nothing, has been called. -/
def klockEnter (m : Machine P T) (p : P) (took : Bool) : Machine P T :=
  if took then { m with klock := some p } else m

/-- `klock_leave`. -/
def klockLeave (m : Machine P T) (took : Bool) : Machine P T :=
  if took then { m with klock := none } else m

/-! ## The run queue -/

/-- `sched_add`: just after the head. -/
def schedAdd (m : Machine P T) (t : T) : Machine P T :=
  { m with
    runQueue := match m.runQueue with
      | [] => [t]
      | h :: q => h :: t :: q }

/-- `sched_remove`. -/
def schedRemove (m : Machine P T) (t : T) : Machine P T :=
  { m with runQueue := m.runQueue.erase t }

/-- The `next` link of a thread, null when it is not in the queue. -/
def next (m : Machine P T) (t : T) : Option T :=
  match m.runQueue.dropWhile (· ≠ t) with
  | [] => none
  | [_] => m.runQueue.head?
  | _ :: u :: _ => some u

/-- The loop of `pick_next`, with the head of the queue and the steps left. -/
def pickLoop (m : Machine P T) (p : P) (cur head : T) : ℕ → T → T
  | 0, _ => (m.cpus p).idle
  | n + 1, t =>
    if (m.threads t).isIdle = false ∧ (m.threads t).state = some .ready then t
    else if t = cur ∧ (m.threads t).state = some .running then t
    else pickLoop m p cur head n ((m.next t).getD head)

/-- The test in the loop of `pick_next`: the thread is ready and not idle, or it is to keep running. -/
def Accepts (m : Machine P T) (cur t : T) : Prop :=
  (m.threads t).isIdle = false ∧ (m.threads t).state = some .ready ∨
    t = cur ∧ (m.threads t).state = some .running

/-- `pick_next`. -/
def pickNext (m : Machine P T) (p : P) (cur : T) : T :=
  match m.runQueue.head? with
  | none => (m.cpus p).idle
  | some head => m.pickLoop p cur head (maxThreads + 1) ((m.next cur).getD head)

/-! ## Scheduling -/

/-- The states `schedule` records, and the thread the processor is to run. -/
def switchTo (m : Machine P T) (p : P) (prev next : T) : Machine P T :=
  let m := if (m.threads prev).state = some .running then
    m.setThread prev fun t => { t with state := some .ready } else m
  (m.setThread next fun t => { t with state := some .running }).setCpu p fun c =>
    { c with current := next, place := .decided prev next }

/-- `schedule`, up to `klock_release`. -/
def schedule (m : Machine P T) (p : P) : Machine P T :=
  let prev := (m.cpus p).current
  let next := m.pickNext p prev
  if next = prev then
    if (m.threads prev).state = some .running then m
    -- The current thread can no longer run and nothing else can: the idle thread takes over.
    else if (m.cpus p).idle = prev then m
    else m.switchTo p prev (m.cpus p).idle
  else m.switchTo p prev next

/-- `sched_block`, and `sched_block_until` when there is a deadline. -/
def schedBlock (m : Machine P T) (p : P) (reason : WaitReason) (deadline : Option UInt32) :
    Machine P T :=
  let wakeAt := match deadline with
    | none => 0
    | some d => if d = 0 then 1 else d
  (m.setThread (m.cpus p).current fun t =>
    { t with state := some .blocked, waitReason := reason, wakeAt }).schedule p

/-- Wakes the blocked threads that `sel` selects; `wakeAt` says what becomes of their deadline. -/
def wakeIf (m : Machine P T) (sel : T → Thread → Prop) [∀ t th, Decidable (sel t th)]
    (wakeAt : UInt32 → UInt32) : Machine P T :=
  { m with
    threads := fun t =>
      if (m.threads t).state = some .blocked ∧ sel t (m.threads t) then
        { m.threads t with
          state := some .ready, waitReason := .none, wakeAt := wakeAt (m.threads t).wakeAt }
      else m.threads t }

/-- `sched_wake`. -/
def schedWake (m : Machine P T) (reason : WaitReason) : Machine P T :=
  m.wakeIf (fun t th => t ∈ m.runQueue ∧ th.waitReason = reason) id

/-- `wake_expired`: the signed difference of the ticks is not negative. -/
def wakeExpired (m : Machine P T) (now : UInt32) : Machine P T :=
  m.wakeIf (fun t th => t ∈ m.runQueue ∧ th.wakeAt ≠ 0 ∧ (now - th.wakeAt).toNat < 2 ^ 31) id

/-- The threads `proc_kill` wakes. -/
def killThreads (m : Machine P T) (r : Ref) : Machine P T :=
  m.wakeIf (fun _ th => th.proc = r) fun _ => 0

/-- The end of `proc_exit`: the thread becomes a zombie and gives up the processor. -/
def threadExit (m : Machine P T) (p : P) : Machine P T :=
  ((m.setThread (m.cpus p).current fun t => { t with state := some .zombie }).schedWake
    .child).schedule p

/-- `switch_context`: the `rsp` of the thread left is saved and that of the other adopted. -/
def switchContext (m : Machine P T) (p : P) (prev next : T) (held : Bool) : Machine P T :=
  let m' := (m.setThread prev fun t => { t with rspSaved := true }).setThread next fun t =>
    { t with rspSaved := false }
  { m'.setCpu p fun c => { c with place := (m.rsp next).1, frame := (m.rsp next).2 } with
    rsp := Function.update m.rsp prev (.resumed held, (m.cpus p).frame) }

/-! ## Making and taking down a thread -/

/-- The thread of a spawned process: its slot is cleared, its stack primed to go to ring 3, and it is
ready. -/
def threadSpawn (m : Machine P T) (t : T) (r : Ref) : Machine P T :=
  let m' := m.setThread t fun _ =>
    { state := some .ready, proc := r, waitReason := .none, wakeAt := 0, isIdle := false,
      rspSaved := true }
  { m'.schedAdd t with rsp := Function.update m.rsp t (.user, ⟨t, false, false, none⟩) }

/-- The part of `teardown` about the thread: it leaves the queue, and its stack and address space are
freed. -/
def teardownThread (m : Machine P T) (t : T) : Machine P T :=
  (m.schedRemove t).setThread t fun th => { th with state := none }

end Machine

/-! ## The machine -/

/-- A step of one processor. -/
inductive Act (P T : Type*)
  /-- An interrupt, or a system call: `interrupt_dispatch` up to `klock_enter`. -/
  | enter (p : P)
  /-- An idle thread's own code enters the kernel, taking the lock or not. -/
  | call (p : P) (locked : Bool)
  /-- `klock_leave`, and what comes after it. -/
  | leave (p : P)
  /-- `schedule`, from a yield, a timer tick or the idle loop. -/
  | yield (p : P)
  | block (p : P) (reason : WaitReason) (deadline : Option UInt32)
  | exit (p : P)
  | wake (p : P) (reason : WaitReason)
  | expire (p : P) (now : UInt32)
  | kill (p : P) (r : Ref)
  | spawn (p : P) (t : T) (r : Ref)
  | reap (p : P) (t : T)
  /-- `klock_release` inside `schedule`. -/
  | release (p : P)
  /-- `switch_context`. -/
  | switch (p : P)
  /-- `klock_acquire` at the end of `schedule`. -/
  | reacquire (p : P)

/-- A processor is in the kernel, and not in an interrupt there. -/
def Cpu.Own {T : Type*} (c : Cpu T) : Prop := c.place = .kernel ∧ c.frame.outer = none

namespace Machine

variable {P T : Type*} [DecidableEq P] [DecidableEq T]

/-- What a processor may do where it is. -/
def Allows (m : Machine P T) : Act P T → Prop
  | .enter p => ((m.cpus p).place = .user ∨ (m.cpus p).frame.intr = true) ∧ m.KlockFree p
  | .call p locked => (m.cpus p).place = .user ∧ (m.cpus p).current = (m.cpus p).idle ∧
    (locked = true → m.KlockFree p)
  | .leave p | .yield p | .wake p _ | .expire p _ => (m.cpus p).place = .kernel
  | .block p _ _ | .kill p _ => (m.cpus p).Own
  -- The idle threads belong to the kernel's process, which does not exit.
  | .exit p => (m.cpus p).Own ∧ (m.threads (m.cpus p).current).isIdle = false
  | .spawn p t _ => (m.cpus p).Own ∧ (m.threads t).state = none
  | .reap p t => (m.cpus p).Own ∧ (m.threads t).state = some .zombie
  | .release p => ∃ prev next, (m.cpus p).place = .decided prev next
  | .switch p => ∃ prev next held, (m.cpus p).place = .switching prev next held
  | .reacquire p => ∃ held, (m.cpus p).place = .resumed held ∧ (held = true → m.klock = none)

instance {T : Type*} [DecidableEq T] (c : Cpu T) : Decidable c.Own :=
  inferInstanceAs (Decidable (_ ∧ _))

instance (m : Machine P T) : DecidablePred m.Allows
  | .enter _ | .call _ _ | .exit _ | .spawn _ _ _ | .reap _ _ =>
    inferInstanceAs (Decidable (_ ∧ _))
  | .leave _ | .yield _ | .wake _ _ | .expire _ _ => inferInstanceAs (Decidable (_ = _))
  | .block p _ _ | .kill p _ => inferInstanceAs (Decidable (m.cpus p).Own)
  | .release p =>
    match h : (m.cpus p).place with
    | .decided prev next => isTrue ⟨prev, next, h⟩
    | .user | .kernel | .switching _ _ _ | .resumed _ => isFalse fun ⟨_, _, h'⟩ => by simp [h] at h'
  | .switch p =>
    match h : (m.cpus p).place with
    | .switching prev next held => isTrue ⟨prev, next, held, h⟩
    | .user | .kernel | .decided _ _ | .resumed _ => isFalse fun ⟨_, _, _, h'⟩ => by simp [h] at h'
  | .reacquire p => inferInstanceAs (Decidable (∃ held : Bool, _ ∧ _))

/-- The machine after a step. -/
def exec (m : Machine P T) : Act P T → Machine P T
  | .enter p =>
    (m.klockEnter p (m.klockTakes p)).setCpu p fun c =>
      { c with
        place := .kernel
        frame := ⟨c.frame.stack, false, m.klockTakes p,
          if c.place = .user then none else some (c.place, c.frame.took)⟩ }
  | .call p locked =>
    (m.klockEnter p (locked && m.klockTakes p)).setCpu p fun c =>
      { c with place := .kernel, frame := ⟨c.frame.stack, true, locked && m.klockTakes p, none⟩ }
  | .leave p =>
    (m.klockLeave (m.cpus p).frame.took).setCpu p fun c =>
      match c.frame.outer with
      | none => { c with place := .user }
      | some (place, took) => { c with place, frame := ⟨c.frame.stack, true, took, none⟩ }
  | .yield p => m.schedule p
  | .block p reason deadline => m.schedBlock p reason deadline
  | .exit p => m.threadExit p
  | .wake _ reason => m.schedWake reason
  | .expire _ now => m.wakeExpired now
  | .kill _ r => m.killThreads r
  | .spawn _ t r => m.threadSpawn t r
  | .reap _ t => m.teardownThread t
  | .release p =>
    match (m.cpus p).place with
    | .decided prev next =>
      -- `klock_held_here`
      (m.klockLeave (m.klock = some p)).setCpu p fun c =>
        { c with place := .switching prev next (m.klock = some p) }
    | _ => m
  | .switch p =>
    match (m.cpus p).place with
    | .switching prev next held => m.switchContext p prev next held
    | _ => m
  | .reacquire p =>
    match (m.cpus p).place with
    | .resumed held => (m.klockEnter p held).setCpu p fun c => { c with place := .kernel }
    | _ => m

/-- `n` processors that are up. Each is in the loop of its own idle thread, which `thread_alloc` gave
it the first slot that was free for, and the other slots of `threads` are free. -/
def booted (n : ℕ) : Machine (Fin n) (Fin n ⊕ Fin (maxThreads - n)) where
  smp := 1 < n
  klock := none
  runQueue := match List.finRange n with
    | [] => []
    | p :: q => (p :: q.reverse).map .inl
  threads t := ⟨if t.isLeft then some .running else none, .kernel, .none, 0, t.isLeft, false⟩
  rsp t := (.user, ⟨t, false, false, none⟩)
  cpus p := ⟨.inl p, .inl p, .user, ⟨.inl p, false, false, none⟩⟩

end Machine

/-- One step of one processor. -/
def schedStep {P T : Type*} [DecidableEq P] [DecidableEq T] :
    Machine P T → Act P T × Unit → Machine P T → Prop :=
  execStep Machine.Allows fun m a => (m.exec a, ())

end Wos.Proc
