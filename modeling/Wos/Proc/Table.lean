import Mathlib.Data.Fintype.Basic
import Wos.Abi
import Wos.Base.Machine

/-!
# The process table

The part of `kernel/proc/proc.c` that keeps the table of processes: `proc_alloc`, the bookkeeping of
`proc_spawn_io` and `proc_exit`, `reap_one` with `proc_wait` and `proc_reap`, `proc_reap_orphans`,
`proc_kill`, and `proc_resize_terminal` behind `sys_setsize`.

A process is named by a pointer into the table, or to the kernel's own process, and so is its parent.
The table has 32 slots that are used again. Its pid is the serial number of its spawn; the model
leaves out that the counter `next_pid` of the source has 32 bits.

A system call runs under the kernel lock up to where it blocks, so each of these functions is one
step; `proc_wait` makes one step each time it looks for a child. What a process does besides being
in the table is left out.

## Main definitions

* `Ref`, `Process`, `Table`;
* `Table.procSpawn`, `Table.procExit`, `Table.procKill`, `Table.reapOne`, `Table.procReapOrphans`,
  `Table.setSize`: the functions;
* `procStep`: the machine they make up.
-/

namespace Wos.Proc

/-- `MAX_PROCESSES`. -/
def maxProcesses : ℕ := 32

instance : NeZero maxProcesses := ⟨Nat.succ_ne_zero _⟩

/-- A pointer to a process: the kernel's own, or one in the table. -/
inductive Ref
  | kernel
  | slot (i : Fin maxProcesses)
  deriving DecidableEq

/-- The scheduling states of a thread. -/
inductive ThreadState
  | ready
  | running
  | blocked
  | zombie
  deriving DecidableEq

/-- `process_t`, as far as its place among the others is concerned. -/
structure Process where
  used : Bool
  /-- The serial number of the spawn. `next_pid` is an `int32_t`, so it is the pid until 2^31
  processes have been spawned. -/
  pid : ℕ
  parent : Option Ref
  exited : Bool
  killed : Bool
  exitStatus : ℤ
  /-- The state of its one thread, if it has one. -/
  thread : Option ThreadState
  termRows : ℕ
  termCols : ℕ
  ownTerminal : Bool
  /-- The pid of the process that spawned this one. The source does not keep it. -/
  spawner : ℕ
  deriving DecidableEq

/-- `memset` to zero. -/
def Process.zero : Process := ⟨false, 0, none, false, false, 0, none, 0, 0, false, 0⟩

/-- `reapable`: the process has exited and its thread has stopped for good. -/
def Process.reapable (c : Process) : Bool :=
  c.exited && (c.thread.isNone || c.thread = some .zombie)

/-- The table and the serial number of the next spawn. -/
structure Table where
  procs : Fin maxProcesses → Process
  nextPid : ℕ

/-- How a spawn ends once it has found a slot. -/
inductive SpawnEnd
  /-- No thread slot, or no address space. -/
  | failsEarly
  /-- No kernel stack, or the image is rejected, or no memory for it or its stack. -/
  | failsLate (e : Errno)
  | succeeds
  deriving DecidableEq

/-- `W_CONSOLE_HEIGHT`. -/
def consoleHeight : ℕ := 50

/-- `W_CONSOLE_WIDTH`. -/
def consoleWidth : ℕ := 80

namespace Table

variable (t : Table)

/-- The pid of a process; that of the kernel's own is zero. -/
def pidOf : Ref → ℕ
  | .kernel => 0
  | .slot i => (t.procs i).pid

/-- The terminal size of a process; that of the kernel's own is the console's. -/
def sizeOf : Ref → ℕ × ℕ
  | .kernel => (consoleHeight, consoleWidth)
  | .slot i => ((t.procs i).termRows, (t.procs i).termCols)

/-- The table with one process replaced. -/
def set (i : Fin maxProcesses) (p : Process) : Table :=
  { t with procs := Function.update t.procs i p }

/-- The slot `proc_alloc` chooses: the first that is not used. -/
def freeSlot : Option (Fin maxProcesses) :=
  (List.finRange maxProcesses).find? fun i => !(t.procs i).used

/-- What `proc_alloc` makes of a slot. -/
def newProcess : Process :=
  { Process.zero with
    used := true
    pid := t.nextPid
    termRows := consoleHeight
    termCols := consoleWidth }

/-- What `proc_spawn_io` makes of it for a child of `parent`, which may be given a window of its own:
the zeroes of a size mean that of the parent. -/
def newChild (parent : Ref) (rows cols : ℕ) : Process :=
  { t.newProcess with
    parent := some parent
    spawner := t.pidOf parent
    termRows := if rows = 0 then (t.sizeOf parent).1 else rows
    termCols := if cols = 0 then (t.sizeOf parent).2 else cols
    ownTerminal := rows != 0 || cols != 0 }

/-- The bookkeeping of `proc_spawn_io`. A spawn that fails leaves the slot free. -/
def procSpawn (parent : Ref) (rows cols : ℕ) (e : SpawnEnd) : Except Errno ℕ × Table :=
  match t.freeSlot with
  | none => (.error .ENOMEM, t)
  | some i =>
    let t' : Table := { t with nextPid := t.nextPid + 1 }
    match e with
    | .failsEarly => (.error .ENOMEM, t'.set i { t.newProcess with used := false })
    | .failsLate e => (.error e, t'.set i { t.newChild parent rows cols with used := false })
    | .succeeds =>
      (.ok t.nextPid, t'.set i { t.newChild parent rows cols with thread := some .ready })

/-- `proc_exit` of the process in slot `i`. -/
def procExit (i : Fin maxProcesses) (status : ℤ) : Table :=
  t.set i { t.procs i with exited := true, exitStatus := status, thread := some .zombie }

/-- `proc_by_pid`. -/
def procByPid (pid : ℤ) : Option (Fin maxProcesses) :=
  (List.finRange maxProcesses).find? fun i => (t.procs i).used && ((t.procs i).pid : ℤ) = pid

/-- `proc_kill`. -/
def procKill (pid : ℤ) : Except Errno Unit × Table :=
  match t.procByPid pid with
  | none => (.error .ESRCH, t)
  | some i =>
    if (t.procs i).exited then (.error .ESRCH, t)
    else
      let thread := if (t.procs i).thread = some .blocked then some .ready else (t.procs i).thread
      (.ok (), t.set i { t.procs i with killed := true, thread := thread })

/-- `teardown`: what an exited process left behind is freed, and its slot. -/
def teardown (i : Fin maxProcesses) : Table :=
  t.set i { t.procs i with thread := none, used := false }

/-- A child of `parent` that `reap_one` is asked for: any, or that with the pid. -/
def isChild (parent : Ref) (pid : ℤ) (i : Fin maxProcesses) : Bool :=
  (t.procs i).used && ((t.procs i).parent = some parent) &&
    !(0 < pid && ((t.procs i).pid : ℤ) != pid)

/-- `reap_one`: the pid of the child that was reaped and its status, or whether there was a child at
all. -/
def reapOne (parent : Ref) (pid : ℤ) : Except Bool (ℕ × ℤ) × Table :=
  match (List.finRange maxProcesses).find? fun i => t.isChild parent pid i && (t.procs i).reapable with
  | some i => (.ok ((t.procs i).pid, (t.procs i).exitStatus), t.teardown i)
  | none => (.error ((List.finRange maxProcesses).any (t.isChild parent pid)), t)

/-- Whom `proc_reap_orphans` tears down. -/
def isOrphan (me : Ref) (keep : ℤ) (i : Fin maxProcesses) : Bool :=
  (t.procs i).used && ((t.procs i).parent = some me) && (t.procs i).reapable &&
    !(0 < keep && ((t.procs i).pid : ℤ) = keep)

/-- The loop of `proc_reap_orphans` over some slots: the pids of the children that were reaped. -/
def reapOrphans (me : Ref) (keep : ℤ) : List (Fin maxProcesses) → Table → List ℕ × Table
  | [], t => ([], t)
  | i :: is, t =>
    if t.isOrphan me keep i then
      let (pids, t') := reapOrphans me keep is (t.teardown i)
      ((t.procs i).pid :: pids, t')
    else reapOrphans me keep is t

/-- `proc_reap_orphans`. -/
def procReapOrphans (me : Ref) (keep : ℤ) : List ℕ × Table :=
  reapOrphans me keep (List.finRange maxProcesses) t

/-- The new size where there is one. -/
def resized (p : Process) (rows cols : ℕ) : Process :=
  { p with
    termRows := if rows = 0 then p.termRows else rows
    termCols := if cols = 0 then p.termCols else cols }

/-- `resize_children`, down to a depth. The source has no bound on it. -/
def resizeChildren (rows cols : ℕ) : ℕ → Ref → Table → Table
  | 0, _, t => t
  | depth + 1, p, t =>
    (List.finRange maxProcesses).foldl
      (fun t i =>
        if !(t.procs i).used || ((t.procs i).parent != some p) || (t.procs i).ownTerminal then t
        else resizeChildren rows cols depth (.slot i) (t.set i (resized (t.procs i) rows cols))) t

/-- `sys_setsize` by `caller`, with the sizes already made non-negative. -/
def setSize (caller : Ref) (pid : ℤ) (rows cols : ℕ) : Except Errno Unit × Table :=
  match t.procByPid pid with
  | none => (.error .ESRCH, t)
  | some i =>
    if (t.procs i).parent != some caller then (.error .EPERM, t)
    else
      let p := { resized (t.procs i) rows cols with ownTerminal := true }
      (.ok (), resizeChildren rows cols maxProcesses (.slot i) (t.set i p))

end Table

/-! ## The machine -/

/-- What can happen next; who makes a call comes first. -/
inductive Op
  | spawn (caller : Ref) (rows cols : ℕ) (e : SpawnEnd)
  | exit (i : Fin maxProcesses) (status : ℤ)
  | kill (pid : ℤ)
  /-- `proc_wait` or `proc_reap` looks for a child. -/
  | reap (caller : Ref) (pid : ℤ)
  | reapOrphans (caller : Ref) (keep : ℤ)
  | setSize (caller : Ref) (pid : ℤ) (rows cols : ℕ)
  /-- The scheduler, a block or a wake changes the state of a thread. -/
  | schedule (i : Fin maxProcesses) (s : ThreadState)

/-- The pids a step reaps. -/
abbrev Reaped := List ℕ

namespace Table

/-- The pid `reap_one` has reaped. -/
def reaped : Except Bool (ℕ × ℤ) → Reaped
  | .ok (pid, _) => [pid]
  | .error _ => []

/-- One step and the pids it reaps. -/
def exec (t : Table) : Op → Table × Reaped
  | .spawn caller rows cols e => ((t.procSpawn caller rows cols e).2, [])
  | .exit i status => (t.procExit i status, [])
  | .kill pid => ((t.procKill pid).2, [])
  | .reap caller pid => ((t.reapOne caller pid).2, reaped (t.reapOne caller pid).1)
  | .reapOrphans caller keep => ((t.procReapOrphans caller keep).2, (t.procReapOrphans caller keep).1)
  | .setSize caller pid rows cols => ((t.setSize caller pid rows cols).2, [])
  | .schedule i s => (t.set i { t.procs i with thread := some s }, [])

/-- A process that runs: it has not exited. -/
def Live (t : Table) : Ref → Prop
  | .kernel => True
  | .slot i => (t.procs i).used = true ∧ (t.procs i).exited = false

/-- Calls are made by processes that run, and the scheduler only handles their threads. -/
def Allows (t : Table) : Op → Prop
  | .spawn caller _ _ _ => t.Live caller
  | .exit i _ => t.Live (.slot i)
  | .kill _ => True
  | .reap caller _ => t.Live caller
  | .reapOrphans caller _ => t.Live caller
  | .setSize caller _ _ _ => t.Live caller
  | .schedule i s => t.Live (.slot i) ∧ s ≠ .zombie

/-- The table after boot. -/
def boot : Table := ⟨fun _ => .zero, 1⟩

end Table

/-- The machine: one operation, with the pids it reaps. -/
def procStep (allowed : Table → Op → Prop) : Table → Op × Reaped → Table → Prop :=
  execStep (fun t op => t.Allows op ∧ allowed t op) Table.exec

end Wos.Proc
