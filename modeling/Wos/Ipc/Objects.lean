import Wos.Ipc.Streams

/-!
# Pipes, sockets and the threads that wait on them

`kernel/fs/pipe.c` and `kernel/fs/socket.c` as a whole: any number of pipes, connections and
listeners, and any number of threads inside their functions. The kernel lock makes the code between
two `sched_block` points one step, so a thread that has blocked is kept with what it resumes with.

A thread waits for a reason, `WAIT_PIPE` or `WAIT_SOCKET`, and `sched_wake` wakes all that wait for
a reason, whatever object they wait on.

Objects are named by the number of their allocation. An end of a connection is named by the
connection and its side. Giving up a reference may free an object, and with it everything that is
queued in it: `release` follows that recursion, with a bound on its depth.

## Main definitions

* `Desc`: what a `file_t` refers to;
* `Pipe`, `Listener`, `Kernel`: the objects, and the threads;
* `Pipe.read`, `Pipe.writeLoop`, `Kernel.release`, `Kernel.socketConnect`, `Kernel.socketAccept`: the
  functions;
* `IpcCall`, `ipcStep`: the machine they make up.
-/

namespace Wos.Ipc

open Function

/-- What a descriptor refers to. -/
inductive Desc
  /-- The console, a file or a directory, which count no references. -/
  | plain
  | pipe (p : ℕ) (writeEnd : Bool)
  /-- An end of a connection. -/
  | endpoint (c : ℕ) (s : Bool)
  | listener (l : ℕ)
  | shm (m : ℕ)
  /-- The keyboard events. -/
  | input
  deriving DecidableEq, Inhabited

/-! ## Pipes -/

/-- `PIPE_CAP`. -/
def pipeCap : ℕ := 4096

/-- `pipe_t`, with everything that was ever put into its ring and taken out of it. -/
structure Pipe where
  ring : Ring UInt8
  readers : ℤ
  writers : ℤ
  put : List UInt8
  got : List UInt8

namespace Pipe

/-- As `pipe_create` leaves it. -/
def fresh : Pipe := ⟨.empty 0, 1, 1, [], []⟩

/-- `pipe_ref`. -/
def ref (p : Pipe) (writeEnd : Bool) : Pipe :=
  if writeEnd then { p with writers := p.writers + 1 } else { p with readers := p.readers + 1 }

/-- `pipe_unref`, as far as the counts are concerned. -/
def unref (p : Pipe) (writeEnd : Bool) : Pipe :=
  if writeEnd then { p with writers := p.writers - 1 } else { p with readers := p.readers - 1 }

/-- The loop of `pipe_read`: up to `len` bytes out of the ring. -/
def drain : ℕ → Pipe → Pipe
  | 0, p => p
  | len + 1, p =>
    if 0 < p.ring.count then
      drain len { p with ring := p.ring.pop pipeCap, got := p.got ++ [p.ring.front] }
    else p

/-- `pipe_read`: nothing if it has to wait; else the pipe, and whether writers are woken. -/
def read (p : Pipe) (len : ℕ) : Option (Pipe × Bool) :=
  if len = 0 then some (p, false)
  else if p.ring.count = 0 ∧ 0 < p.writers then none
  else if p.ring.count = 0 then some (p, false)
  else some (drain len p, true)

/-- The inner loop of `pipe_write`: bytes into the ring while there is room, and how many. -/
def fill (p : Pipe) : List UInt8 → Pipe × ℕ
  | [] => (p, 0)
  | b :: bs =>
    if p.ring.count < pipeCap then
      let r := fill { p with ring := p.ring.push pipeCap b, put := p.put ++ [b] } bs
      (r.1, r.2 + 1)
    else (p, 0)

/-- `pipe_write` from byte `n` on, until it ends or has to wait. -/
def writeLoop (buf : List UInt8) : ℕ → Pipe → ℕ → Pipe × SendEnd
  | 0, p, n => (p, .waiting n)
  | fuel + 1, p, n =>
    if buf.length ≤ n then (p, .finished n)
    else if p.readers ≤ 0 then (p, .broken n)
    else if p.ring.count = pipeCap then (p, .waiting n)
    else
      let r := p.fill (buf.drop n)
      writeLoop buf fuel r.1 (n + r.2)

end Pipe

/-! ## Listeners and threads -/

/-- `SOCK_BACKLOG`. -/
def sockBacklog : ℕ := 8

/-- A `socket_t` that listens. In the backlog stand the ends of side 1 of connections. -/
structure Listener where
  refs : ℕ
  path : List UInt8
  owner : ℕ
  backlog : List ℕ

/-- Where a thread waits, with what it resumes with. -/
inductive Wait
  | pipeRead (p len : ℕ)
  /-- With `n` bytes written. -/
  | pipeWrite (p : ℕ) (buf : List UInt8) (n : ℕ)
  | accept (l : ℕ)
  /-- In `socket_send` or `socket_recv`. -/
  | talk (c : ℕ) (q : Pending Desc)

/-- The thread waits for `WAIT_PIPE`, else for `WAIT_SOCKET`. -/
def Wait.onPipe : Wait → Bool
  | .pipeRead _ _ | .pipeWrite _ _ _ => true
  | .accept _ | .talk _ _ => false

/-- The object that the call is on. -/
def Wait.desc : Wait → Desc
  | .pipeRead p _ => .pipe p false
  | .pipeWrite p _ _ => .pipe p true
  | .accept l => .listener l
  | .talk c q => .endpoint c q.side

/-- A thread, as far as these functions are concerned. -/
inductive Status
  /-- In none of them. -/
  | outside
  /-- `THREAD_BLOCKED`. -/
  | blocked (q : Wait)
  /-- Woken, but not yet running. -/
  | ready (q : Wait)

/-- Everything the functions work on. -/
structure Kernel (T : Type) where
  pipes : ℕ → Pipe
  pipeCount : ℕ
  conns : ℕ → Conn Desc
  connCount : ℕ
  listeners : ℕ → Listener
  listenerCount : ℕ
  /-- `listeners[MAX_LISTENERS]`. -/
  slots : Fin 8 → Option ℕ
  shmRefs : ℕ → ℤ
  inputRefs : ℤ
  threads : T → Status

namespace Kernel

variable {T : Type}

/-- Nothing has been made yet. -/
def boot (T : Type) : Kernel T where
  pipes _ := .fresh
  pipeCount := 0
  conns _ := .fresh Desc
  connCount := 0
  listeners _ := ⟨0, [], 0, []⟩
  listenerCount := 0
  slots _ := none
  shmRefs _ := 0
  inputRefs := 0
  threads _ := .outside

/-- `sched_wake`. -/
def wake (k : Kernel T) (onPipe : Bool) : Kernel T :=
  { k with threads := fun t =>
    match k.threads t with
    | .blocked q => if q.onPipe = onPipe then .ready q else .blocked q
    | status => status }

/-- `sched_wake`, if the code got there. -/
def wakeIf (k : Kernel T) (cond onPipe : Bool) : Kernel T := if cond then k.wake onPipe else k

/-- A pipe, connection or listener replaced. -/
def setPipe (k : Kernel T) (p : ℕ) (x : Pipe) : Kernel T :=
  { k with pipes := Function.update k.pipes p x }
def setConn (k : Kernel T) (c : ℕ) (x : Conn Desc) : Kernel T :=
  { k with conns := Function.update k.conns c x }
def setListener (k : Kernel T) (l : ℕ) (x : Listener) : Kernel T :=
  { k with listeners := Function.update k.listeners l x }

section Replaced

variable (k : Kernel T) (i : ℕ)

@[simp]
lemma setPipe_self (x : Pipe) : (k.setPipe i x).pipes i = x := update_self ..

@[simp]
lemma setConn_self (x : Conn Desc) : (k.setConn i x).conns i = x := update_self ..

lemma setConn_of_ne {j : ℕ} (h : j ≠ i) (x : Conn Desc) : (k.setConn i x).conns j = k.conns j :=
  update_of_ne h ..

lemma setListener_of_ne {j : ℕ} (h : j ≠ i) (x : Listener) :
    (k.setListener i x).listeners j = k.listeners j :=
  update_of_ne h ..

end Replaced

/-- A thread has run to its next blocking point or to its end. -/
def setThread [DecidableEq T] (k : Kernel T) (t : T) (status : Status) : Kernel T :=
  { k with threads := Function.update k.threads t status }

/-! ## References -/

/-- `vfs_fd_retain`. -/
def retain (k : Kernel T) : Desc → Kernel T
  | .plain => k
  | .pipe p writeEnd => k.setPipe p ((k.pipes p).ref writeEnd)
  | .endpoint c s => k.setConn c ((k.conns c).socketRef s)
  | .listener l => k.setListener l { k.listeners l with refs := (k.listeners l).refs + 1 }
  | .shm m => { k with shmRefs := Function.update k.shmRefs m (k.shmRefs m + 1) }
  | .input => { k with inputRefs := k.inputRefs + 1 }

/-- `pipe_unref`. -/
def pipeUnref (k : Kernel T) (p : ℕ) (writeEnd : Bool) : Kernel T :=
  (k.setPipe p ((k.pipes p).unref writeEnd)).wake true

/-- Something to give up: a descriptor, or what is queued in a direction of a connection. -/
inductive Task
  | desc (d : Desc)
  | queue (c : ℕ) (s : Bool)

/-- The end of a connection is closed, before its queues are given up. -/
def closeEnd (k : Kernel T) (c : ℕ) (s : Bool) : Kernel T :=
  k.setConn c
    { k.conns c with
      refs := Function.update (k.conns c).refs s 0
      closed := Function.update (k.conns c).closed s true }

/-- The oldest queued descriptor leaves its queue. -/
def popFd (k : Kernel T) (c : ℕ) (s : Bool) : Kernel T :=
  let d := (k.conns c).dir s
  k.setConn c ((k.conns c).setDir s { d with fds := d.fds.pop sockFdCap })

/-- A listener is taken out of the table. -/
def forget (k : Kernel T) (l : ℕ) : Kernel T :=
  { k with
    listeners := Function.update k.listeners l { k.listeners l with refs := 0 }
    slots := fun i => if k.slots i = some l then none else k.slots i }

/-- `vfs_fd_drop` and `drop_queued_fds`, with `pipe_unref` and `socket_unref`, as deep as `fuel`
allows. A queued descriptor is given up before it leaves its queue. -/
def release : ℕ → Kernel T → Task → Option (Kernel T)
  | 0, _, _ => none
  | fuel + 1, k, .desc d =>
    match d with
    | .plain => some k
    | .pipe p writeEnd => some (k.pipeUnref p writeEnd)
    | .shm m => some { k with shmRefs := Function.update k.shmRefs m (k.shmRefs m - 1) }
    | .input => some { k with inputRefs := k.inputRefs - 1 }
    | .endpoint c s =>
      if 1 < (k.conns c).refs s then
        some (k.setConn c
          { k.conns c with refs := Function.update (k.conns c).refs s ((k.conns c).refs s - 1) })
      else
        (release fuel (k.closeEnd c s) (.queue c s)).bind fun k =>
          (release fuel k (.queue c !s)).map (·.wake false)
    | .listener l =>
      if 1 < (k.listeners l).refs then
        some (k.setListener l { k.listeners l with refs := (k.listeners l).refs - 1 })
      else
        ((k.listeners l).backlog.foldlM (fun k c => release fuel k (.desc (.endpoint c true)))
          (k.forget l)).map (·.wake false)
  | fuel + 1, k, .queue c s =>
    if ((k.conns c).dir s).fds.count = 0 then some k
    else
      (release fuel k (.desc ((k.conns c).dir s).fds.front.1)).bind fun k =>
        release fuel (k.popFd c s) (.queue c s)

/-! ## Making connections -/

/-- `find_listener`. -/
def findListener (k : Kernel T) (path : List UInt8) : Option ℕ :=
  (List.finRange 8).findSome? fun i =>
    (k.slots i).filter fun l => (k.listeners l).path = path

/-- `socket_listen`; `memory` says whether there is room for the socket. -/
def socketListen (k : Kernel T) (path : List UInt8) (owner : ℕ) (memory : Bool) :
    Kernel T × Except Errno ℕ :=
  if (k.findListener path).isSome then (k, .error .EEXIST)
  else
    match (List.finRange 8).find? fun i => k.slots i = none with
    | none => (k, .error .ENFILE)
    | some i =>
      if ¬ memory then (k, .error .ENOMEM)
      else
        ({ k with
            listeners := Function.update k.listeners k.listenerCount ⟨1, path, owner, []⟩
            listenerCount := k.listenerCount + 1
            slots := Function.update k.slots i (some k.listenerCount) }, .ok k.listenerCount)

/-- `socket_connect`; the caller's end is side 0. -/
def socketConnect (k : Kernel T) (path : List UInt8) (uid : ℕ) (memory : Bool) :
    Kernel T × Except Errno ℕ :=
  match k.findListener path with
  | none => (k, .error .ENOENT)
  | some l =>
    let x := k.listeners l
    if uid ≠ x.owner ∧ uid ≠ 0 then (k, .error .EPERM)
    else if sockBacklog ≤ x.backlog.length then (k, .error .EBUSY)
    else if ¬ memory then (k, .error .ENOMEM)
    else
      let k' : Kernel T :=
        { k with
          conns := Function.update k.conns k.connCount (.fresh Desc)
          connCount := k.connCount + 1
          listeners := Function.update k.listeners l { x with backlog := x.backlog ++ [k.connCount] } }
      (k'.wake false, .ok k.connCount)

end Kernel

/-! ## The machine -/

/-- What can happen next. -/
inductive IpcCall (T : Type)
  | pipe
  | read (t : T) (p len : ℕ)
  | write (t : T) (p : ℕ) (buf : List UInt8)
  | listen (path : List UInt8) (owner : ℕ) (memory : Bool)
  | connect (path : List UInt8) (uid : ℕ) (memory : Bool)
  | accept (t : T) (l : ℕ)
  | send (t : T) (c : ℕ) (s : Bool) (buf : List UInt8) (fds : List Desc)
  | recv (t : T) (c : ℕ) (s : Bool) (len want : ℕ)
  | retain (d : Desc)
  /-- A reference is given up, in a recursion no deeper than `fuel`. -/
  | drop (d : Desc) (fuel : ℕ)
  /-- A woken thread runs on. -/
  | resume (t : T)
  /-- A thread is killed: if it has blocked, it leaves the kernel from there. -/
  | kill (t : T)

/-- `sched_wake` is called in the step: bytes were put or taken, or only descriptors were sent. -/
def Effect.wakes {F : Type} : Effect F → Bool
  | .sent _ queued msg accepted _ => !accepted.isEmpty || (msg.isEmpty && !queued.isEmpty)
  | .received _ _ _ _ _ => true
  | .quiet => false

/-- The descriptors that were queued in the step. -/
def Effect.queued {F : Type} : Effect F → List F
  | .sent _ queued _ _ _ => queued
  | _ => []

namespace Kernel

variable {T : Type} [DecidableEq T]

/-- `pipe_read`. -/
def pipeRead (k : Kernel T) (t : T) (p len : ℕ) : Kernel T :=
  match (k.pipes p).read len with
  | none => k.setThread t (.blocked (.pipeRead p len))
  | some (x, wakes) => ((k.setPipe p x).wakeIf wakes true).setThread t .outside

/-- `pipe_write` from byte `n` on. -/
def pipeWrite (k : Kernel T) (t : T) (p : ℕ) (buf : List UInt8) (n : ℕ) : Kernel T :=
  let r := (k.pipes p).writeLoop buf (buf.length + 1) n
  ((k.setPipe p r.1).wakeIf (n < r.2.pos) true).setThread t
    (match r.2 with
    | .waiting n' => .blocked (.pipeWrite p buf n')
    | _ => .outside)

/-- `socket_accept`. -/
def socketAccept (k : Kernel T) (t : T) (l : ℕ) : Kernel T :=
  match (k.listeners l).backlog with
  | [] => k.setThread t (.blocked (.accept l))
  | _ :: rest => (k.setListener l { k.listeners l with backlog := rest }).setThread t .outside

/-- A thread has run inside `socket_send` or `socket_recv`. -/
def talked (k : Kernel T) (t : T) (c : ℕ) (r : Conn Desc × Effect Desc × Option (Pending Desc)) :
    Kernel T :=
  ((r.2.1.queued.foldl retain (k.setConn c r.1)).wakeIf r.2.1.wakes false).setThread t
    (match r.2.2 with
    | some q => .blocked (.talk c q)
    | none => .outside)

/-- A thread runs on where it has blocked. -/
def resumed (k : Kernel T) (t : T) : Wait → Kernel T
  | .pipeRead p len => k.pipeRead t p len
  | .pipeWrite p buf n => k.pipeWrite t p buf n
  | .accept l => k.socketAccept t l
  | .talk c (.sendFds s buf fds) => k.talked t c ((k.conns c).sendFds s buf fds)
  | .talk c (.sendRoom s buf n) => k.talked t c ((k.conns c).sendBytes s buf n [])
  | .talk c (.recv s len want) => k.talked t c ((k.conns c).socketRecv s len want)

/-- One step, unless its recursion is too deep. -/
def exec (k : Kernel T) : IpcCall T → Option (Kernel T)
  | .pipe =>
    some { k with
      pipes := Function.update k.pipes k.pipeCount .fresh
      pipeCount := k.pipeCount + 1 }
  | .read t p len => some (k.pipeRead t p len)
  | .write t p buf => some (k.pipeWrite t p buf 0)
  | .listen path owner memory => some (k.socketListen path owner memory).1
  | .connect path uid memory => some (k.socketConnect path uid memory).1
  | .accept t l => some (k.socketAccept t l)
  | .send t c s buf fds => some (k.talked t c ((k.conns c).socketSend s buf fds))
  | .recv t c s len want => some (k.talked t c ((k.conns c).socketRecv s len want))
  | .retain d => some (k.retain d)
  | .drop d fuel => release fuel k (.desc d)
  | .resume t =>
    match k.threads t with
    | .ready q => some (k.resumed t q)
    | _ => none
  | .kill t => some (k.setThread t .outside)

omit [DecidableEq T] in
/-- The object is there, and the reference that the descriptor stands for. -/
def Live (k : Kernel T) : Desc → Prop
  | .plain => True
  | .pipe p writeEnd =>
    p < k.pipeCount ∧ 0 < if writeEnd then (k.pipes p).writers else (k.pipes p).readers
  | .endpoint c s => c < k.connCount ∧ (k.conns c).closed s = false
  | .listener l => l < k.listenerCount ∧ 0 < (k.listeners l).refs
  | .shm m => 0 < k.shmRefs m
  | .input => 0 < k.inputRefs

omit [DecidableEq T] in
/-- Whoever makes a call, or runs on in one, holds a reference to what it is on; a thread is in one
call at a time. -/
def Allows (k : Kernel T) : IpcCall T → Prop
  | .pipe => True
  | .read t p _ => k.threads t = .outside ∧ k.Live (.pipe p false)
  | .write t p _ => k.threads t = .outside ∧ k.Live (.pipe p true)
  | .listen _ _ _ => True
  | .connect _ _ _ => True
  | .accept t l => k.threads t = .outside ∧ k.Live (.listener l)
  | .send t c s _ fds => k.threads t = .outside ∧ k.Live (.endpoint c s) ∧ ∀ d ∈ fds, k.Live d
  | .recv t c s _ _ => k.threads t = .outside ∧ k.Live (.endpoint c s)
  | .retain d => k.Live d
  | .drop d _ => k.Live d
  | .resume t => ∀ q, k.threads t = .ready q → k.Live q.desc
  | .kill _ => True

end Kernel

/-- The machine: one call or resumption that completes. -/
def ipcStep {T : Type} [DecidableEq T] (k : Kernel T) (call : IpcCall T) (k' : Kernel T) : Prop :=
  k.Allows call ∧ k.exec call = some k'

end Wos.Ipc
