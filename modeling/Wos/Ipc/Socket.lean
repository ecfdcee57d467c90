import Wos.Abi
import Wos.Base.Machine
import Wos.Base.Ring

/-!
# A connected pair of sockets

The functions of `kernel/fs/socket.c` that move messages over one connection: `socket_send`,
`socket_recv`, `socket_ref` and `socket_unref`. A direction of a connection holds bytes and
descriptors in two ring buffers; a descriptor remembers the position in the stream of bytes at which
its message ends, and is handed over once that position has been read past.

A system call runs with interrupts masked and under the kernel lock, so it is interrupted only where
it blocks. A thread that blocks is kept in `World.waiting` with what it has to resume with, and each
call or resumption runs to its next blocking point in one step. Any number of threads may be inside
calls on either end.

What a descriptor names is left open (`F`): dropping one may close other objects, and when it closes
an end of this very connection, that shows up here as a step of its own.

## Main definitions

* `Dir`, `Conn`, `World`: one direction, the connection, and the threads inside calls;
* `Conn.socketSend`, `Conn.socketRecv`, `Conn.socketUnref`: the functions;
* `sockStep`: the machine they make up.
-/

namespace Wos.Ipc

/-- `SOCK_CAP`, the bytes buffered in a direction. -/
def sockCap : ℕ := 4096

/-- `SOCK_FD_CAP`, the descriptors queued in a direction. -/
def sockFdCap : ℕ := 28

/-- The number of values of a `uint64_t`. -/
def word64 : ℕ := 18446744073709551616

/-- `sock_dir_t`: the bytes one end writes and the other reads, and the descriptors with them. -/
structure Dir (F : Type) where
  buf : Ring UInt8
  /-- How many bytes were ever written, as a `uint64_t`. -/
  written : ℕ
  /-- How many bytes were ever read, as a `uint64_t`. -/
  read : ℕ
  /-- The queued descriptors and where in the stream their messages end. -/
  fds : Ring (F × ℕ)

namespace Dir

variable {F : Type}

/-- One byte into the buffer. -/
def put (d : Dir F) (b : UInt8) : Dir F :=
  { d with buf := d.buf.push sockCap b, written := (d.written + 1) % word64 }

/-- The inner loop of `socket_send`: bytes into the buffer while there is room. It returns how many
there were. -/
def fill (d : Dir F) : List UInt8 → Dir F × ℕ
  | [] => (d, 0)
  | b :: bs =>
    if d.buf.count < sockCap then
      let (d', n) := (d.put b).fill bs
      (d', n + 1)
    else (d, 0)

/-- The descriptors of a message of `len` bytes into the queue. -/
def queueFds (d : Dir F) (len : ℕ) (fds : List F) : Dir F :=
  fds.foldl (fun d f => { d with fds := d.fds.push sockFdCap (f, (d.written + len) % word64) }) d

/-- One byte out of the buffer. -/
def get (d : Dir F) : Dir F := { d with buf := d.buf.pop sockCap, read := (d.read + 1) % word64 }

/-- The first loop of `socket_recv`: up to `len` bytes out of the buffer. -/
def drain : ℕ → Dir F → List UInt8 × Dir F
  | 0, d => ([], d)
  | len + 1, d =>
    if 0 < d.buf.count then
      let (out, d') := drain len d.get
      (d.buf.front :: out, d')
    else ([], d)

/-- The second loop of `socket_recv`: up to `want` descriptors whose place in the stream has been
read past. -/
def handOver : ℕ → Dir F → List F × Dir F
  | 0, d => ([], d)
  | want + 1, d =>
    if 0 < d.fds.count ∧ d.fds.front.2 ≤ d.read then
      let (out, d') := handOver want { d with fds := d.fds.pop sockFdCap }
      (d.fds.front.1 :: out, d')
    else ([], d)

/-- `drop_queued_fds`, as far as the queue is concerned. -/
def dropQueuedFds (d : Dir F) : Dir F := { d with fds := d.fds.clear sockFdCap }

/-- `memset` to zero. -/
def zero (F : Type) [Inhabited F] : Dir F := ⟨.empty 0, 0, 0, .empty (default, 0)⟩

end Dir

/-- `sock_conn_t`, with the reference counts of its two ends. The end `s` writes `dir s`. -/
structure Conn (F : Type) where
  refs : Bool → ℕ
  closed : Bool → Bool
  dir : Bool → Dir F

/-- What a thread that has blocked inside a call resumes with. -/
inductive Pending (F : Type)
  /-- In `socket_send`, waiting for room for the descriptors. -/
  | sendFds (s : Bool) (buf : List UInt8) (fds : List F)
  /-- In `socket_send`, waiting for room for bytes when `n` of them are written. -/
  | sendRoom (s : Bool) (buf : List UInt8) (n : ℕ)
  /-- In `socket_recv`, waiting for something to read. -/
  | recv (s : Bool) (len want : ℕ)

/-- The end a blocked call is on. -/
def Pending.side {F : Type} : Pending F → Bool
  | .sendFds s _ _ => s
  | .sendRoom s _ _ => s
  | .recv s _ _ => s

/-- What a step shows to the outside. -/
inductive Effect (F : Type)
  /-- A send of the message `msg` on end `s` queued descriptors, accepted bytes, and returned or
  blocked. -/
  | sent (s : Bool) (queued : List F) (msg accepted : List UInt8)
      (result : Option (Except Errno ℕ))
  /-- A receive on end `s` returned. -/
  | received (s : Bool) (len want : ℕ) (bytes : List UInt8) (fds : List F)
  /-- Nothing that matters here. -/
  | quiet
  deriving DecidableEq

/-- How the loop of `socket_send` over the bytes stopped, and at which byte. -/
inductive SendEnd
  | finished (n : ℕ)
  /-- The peer has gone. -/
  | broken (n : ℕ)
  | waiting (n : ℕ)

namespace Conn

variable {F : Type}

/-- `peer_gone`. -/
def peerGone (c : Conn F) (s : Bool) : Bool := c.closed (!s)

/-- The connection with a direction replaced. -/
def setDir (c : Conn F) (s : Bool) (d : Dir F) : Conn F :=
  { c with dir := Function.update c.dir s d }

/-- The loop of `socket_send` over the bytes, from byte `n` on, which is not the last. Every
iteration but the last writes at least one byte. -/
def sendLoop (s : Bool) (buf : List UInt8) : ℕ → Conn F → ℕ → Conn F × SendEnd
  | 0, c, n => (c, .waiting n)
  | fuel + 1, c, n =>
    if c.peerGone s then (c, .broken n)
    else if (c.dir s).buf.count = sockCap then (c, .waiting n)
    else
      let (d, k) := (c.dir s).fill (buf.drop n)
      if buf.length ≤ n + k then (c.setDir s d, .finished (n + k))
      else sendLoop s buf fuel (c.setDir s d) (n + k)

/-- `socket_send` from byte `n` on, once its descriptors are queued: those `queued` in this very
step are shown. -/
def sendBytes (c : Conn F) (s : Bool) (buf : List UInt8) (n : ℕ) (queued : List F) :
    Conn F × Effect F × Option (Pending F) :=
  let (c', e) :=
    if buf.length ≤ n then (c, .finished n) else sendLoop s buf (buf.length + 1) c n
  let shown (n' : ℕ) := Effect.sent s queued buf ((buf.drop n).take (n' - n))
  match e with
  | .finished n' => (c', shown n' (some (.ok n')), none)
  | .broken n' => (c', shown n' (some (if 0 < n' then .ok n' else .error .EPIPE)), none)
  | .waiting n' => (c', shown n' none, some (.sendRoom s buf n'))

/-- `socket_send` from the place on where it waits for room for its descriptors. -/
def sendFds (c : Conn F) (s : Bool) (buf : List UInt8) (fds : List F) :
    Conn F × Effect F × Option (Pending F) :=
  if sockFdCap - (c.dir s).fds.count < fds.length then
    if c.peerGone s then (c, .sent s [] buf [] (some (.error .EPIPE)), none)
    else (c, .sent s [] buf [] none, some (.sendFds s buf fds))
  else (c.setDir s ((c.dir s).queueFds buf.length fds)).sendBytes s buf 0 fds

/-- `socket_send`. -/
def socketSend (c : Conn F) (s : Bool) (buf : List UInt8) (fds : List F) :
    Conn F × Effect F × Option (Pending F) :=
  if sockFdCap < fds.length then (c, .sent s [] buf [] (some (.error .EINVAL)), none)
  else c.sendFds s buf fds

/-- `socket_recv`, from the start or from the place where it waits. -/
def socketRecv (c : Conn F) (s : Bool) (len want : ℕ) : Conn F × Effect F × Option (Pending F) :=
  let d := c.dir (!s)
  if d.buf.count = 0 ∧ d.fds.count = 0 ∧ c.peerGone s = false then
    (c, .quiet, some (.recv s len want))
  else
    let (bytes, d) := d.drain len
    let (fds, d) := d.handOver want
    (c.setDir (!s) d, .received s len want bytes fds, none)

/-- `socket_ref`. -/
def socketRef (c : Conn F) (s : Bool) : Conn F :=
  { c with refs := Function.update c.refs s (c.refs s + 1) }

/-- `socket_unref`: the last one closes the end and gives up the descriptors of both directions. -/
def socketUnref (c : Conn F) (s : Bool) : Conn F :=
  if 1 < c.refs s then { c with refs := Function.update c.refs s (c.refs s - 1) }
  else
    { refs := Function.update c.refs s 0
      closed := Function.update c.closed s true
      dir := fun t => (c.dir t).dropQueuedFds }

/-- A connection as `socket_connect` makes it. -/
def fresh (F : Type) [Inhabited F] : Conn F := ⟨fun _ => 1, fun _ => false, fun _ => .zero F⟩

end Conn

/-! ## Threads -/

/-- The connection, the threads that have blocked inside calls on it, and those that were killed. -/
structure World (T F : Type) where
  conn : Conn F
  waiting : T → Option (Pending F)
  gone : T → Bool

/-- What can happen next. -/
inductive Call (T F : Type)
  | send (t : T) (s : Bool) (buf : List UInt8) (fds : List F)
  | recv (t : T) (s : Bool) (len want : ℕ)
  /-- A blocked thread runs on, because it was woken. -/
  | resume (t : T)
  /-- A thread is killed. If it has blocked, it leaves the kernel from there. -/
  | kill (t : T)
  | ref (s : Bool)
  | unref (s : Bool)

namespace World

variable {T F : Type} [DecidableEq T]

/-- The world before anybody has made a call. -/
def fresh (T F : Type) [Inhabited F] : World T F := ⟨.fresh F, fun _ => none, fun _ => false⟩

/-- Thread `t` has run to its next blocking point or to its end. -/
def ran (w : World T F) (t : T) (r : Conn F × Effect F × Option (Pending F)) :
    World T F × Effect F :=
  ({ w with conn := r.1, waiting := Function.update w.waiting t r.2.2 }, r.2.1)

/-- One step and what it shows. -/
def exec (w : World T F) : Call T F → World T F × Effect F
  | .send t s buf fds => w.ran t (w.conn.socketSend s buf fds)
  | .recv t s len want => w.ran t (w.conn.socketRecv s len want)
  | .resume t =>
    match w.waiting t with
    | none => (w, .quiet)
    | some (.sendFds s buf fds) => w.ran t (w.conn.sendFds s buf fds)
    | some (.sendRoom s buf n) => w.ran t (w.conn.sendBytes s buf n [])
    | some (.recv s len want) => w.ran t (w.conn.socketRecv s len want)
  | .kill t =>
    ({ w with
        waiting := Function.update w.waiting t none
        gone := Function.update w.gone t true }, .quiet)
  | .ref s => ({ w with conn := w.conn.socketRef s }, .quiet)
  | .unref s => ({ w with conn := w.conn.socketUnref s }, .quiet)

/-- Nobody is inside a call on end `s`. -/
def Quiet (w : World T F) (s : Bool) : Prop := ∀ t p, w.waiting t = some p → p.side ≠ s

/-- Whoever makes a call on an end holds a reference to it, so the end is open, and the last
reference is not given up while somebody is inside a call. A thread is in one call at a time. -/
def Allows (w : World T F) : Call T F → Prop
  | .send t s _ _ => w.waiting t = none ∧ w.gone t = false ∧ w.conn.closed s = false
  | .recv t s _ _ => w.waiting t = none ∧ w.gone t = false ∧ w.conn.closed s = false
  | .resume _ => True
  | .kill _ => True
  | .ref s => w.conn.closed s = false
  | .unref s => w.conn.closed s = false ∧ (w.conn.refs s ≤ 1 → w.Quiet s)

end World

/-- The machine: one call or resumption, with what it shows. -/
def sockStep {T F : Type} [DecidableEq T] (allowed : World T F → Call T F → Prop) :
    World T F → Call T F × Effect F → World T F → Prop :=
  execStep (fun w call => w.Allows call ∧ allowed w call) World.exec

end Wos.Ipc
