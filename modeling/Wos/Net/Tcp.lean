import Wos.Abi
import Wos.Base.CounterRing
import Mathlib.Data.List.FinRange

/-!
# TCP

The TCP client of `kernel/net/net.c`: four connections, segments arriving at `tcp_input`, and the
calls that a program makes on a connection it has opened. Sequence numbers and ring counters are `uint32_t`, so all arithmetic
on them is modulo `2 ^ 32`, and the comparisons of acknowledgements are those of `int32_t`.

A call that waits does so by polling the card until a deadline passes. What each poll finds, and how
many there are before the deadline, is an input of the call: a list of polls for each wait. Every
segment that `tcp_send` builds is kept in `sent`. Below `ip_send` nothing is modelled: a lost segment
is one that the other side never answers, and the next hop's address is taken to be known. Where it
is not, `ip_send` polls until it has been resolved, and segments arrive before the one that is sent;
`net_tcp_open`, whose first segment may do so, is left out.

## Main definitions

* `Segment`, `TcpConn`, `TcpTable`: the state;
* `TcpConn.input`, `tcpInput`: an arriving segment;
* `netTcpSend`, `netTcpRecv`, `netTcpClose`: the calls.

## Main results

* `netTcpClose_refused`: closed handles.
-/

namespace Wos.Net

/-- One more than the largest `uint32_t`. -/
def word32 : ℕ := 4294967296

/-- `TCP_RX`, the bytes of a receive ring. -/
def tcpRx : ℕ := 32768

/-- `TCP_MSS`, the most bytes in a segment. -/
def tcpMss : ℕ := 1400

/-- `a - b` on `uint32_t`. -/
def sub32 (a b : ℕ) : ℕ := (a + (word32 - b)) % word32

/-- `(int32_t) (a - b) > 0`. -/
def After (a b : ℕ) : Prop := 0 < sub32 a b ∧ sub32 a b < 2147483648

/-- `(int32_t) (a - b) >= 0`. -/
def AtLeast (a b : ℕ) : Prop := sub32 a b < 2147483648

instance (a b : ℕ) : Decidable (After a b) := inferInstanceAs (Decidable (_ ∧ _))

instance (a b : ℕ) : Decidable (AtLeast a b) := inferInstanceAs (Decidable (_ < _))

/-! ## Segments and connections -/

/-- The flags of a segment. -/
structure TcpFlags where
  fin : Bool := false
  syn : Bool := false
  rst : Bool := false
  psh : Bool := false
  ack : Bool := false
  deriving DecidableEq

/-- A segment, with the address of the machine at the other end. `tcp_input` does not look at the
window of an arriving segment. -/
structure Segment where
  addr : ℕ
  sport : ℕ
  dport : ℕ
  seq : ℕ
  ack : ℕ
  flags : TcpFlags
  window : ℕ
  data : List UInt8
  deriving DecidableEq

/-- `S_CLOSED` to `S_DONE`. -/
inductive TcpState
  | closed | synSent | established | finSent | done
  deriving DecidableEq

/-- `struct tcp_conn`; `rx` is the receive ring with its two counters. -/
structure TcpConn where
  used : Bool
  state : TcpState
  rip : ℕ
  rport : ℕ
  lport : ℕ
  sndNxt : ℕ
  sndUna : ℕ
  rcvNxt : ℕ
  rx : CounterRing UInt8
  rfin : Bool
  reset : Bool

namespace TcpConn

variable (c : TcpConn)

/-- A connection that was `memset` to zero. -/
def zero : TcpConn := ⟨false, .closed, 0, 0, 0, 0, 0, 0, CounterRing.empty 0, false, false⟩

/-- `rx_count`. -/
def rxCount : ℕ := c.rx.count word32

/-- `rx_free`. -/
def rxFree : ℕ := sub32 tcpRx c.rxCount

/-- The segment that `tcp_send` builds. -/
def segment (flags : TcpFlags) (data : List UInt8) : Segment where
  addr := c.rip
  sport := c.lport
  dport := c.rport
  seq := c.sndNxt
  ack := c.rcvNxt
  flags := flags
  window := (if 65535 < c.rxFree then 65535 else c.rxFree) % 65536
  data := data

/-- A bare acknowledgement. -/
def ackSegment : Segment := c.segment { ack := true } []

/-- The connection is the one a segment is for. -/
def Fits (seg : Segment) : Prop :=
  c.used = true ∧ c.rip = seg.addr ∧ c.rport = seg.sport ∧ c.lport = seg.dport

instance (seg : Segment) : Decidable (c.Fits seg) := inferInstanceAs (Decidable (_ ∧ _))

/-! ## An arriving segment -/

/-- The acknowledgement number is noted if it is news. -/
def inputAck (seg : Segment) : TcpConn :=
  if seg.flags.ack = true ∧ After seg.ack c.sndUna then { c with sndUna := seg.ack } else c

/-- The data of a segment is in order and there is room for it. -/
def Accepts (seg : Segment) : Prop :=
  0 < seg.data.length ∧ seg.seq = c.rcvNxt ∧ seg.data.length ≤ c.rxFree

instance (seg : Segment) : Decidable (c.Accepts seg) := inferInstanceAs (Decidable (_ ∧ _))

/-- In-order data goes into the ring; anything else earns a duplicate acknowledgement. -/
def inputData (seg : Segment) : TcpConn × List Segment :=
  if c.Accepts seg then
    let c' := { c with
      rx := c.rx.pushAll word32 tcpRx seg.data
      rcvNxt := (c.rcvNxt + seg.data.length) % word32 }
    (c', [c'.ackSegment])
  else if 0 < seg.data.length then (c, [c.ackSegment])
  else (c, [])

/-- The end of the stream, once everything before it has arrived. -/
def inputFin (seg : Segment) : TcpConn × List Segment :=
  if seg.flags.fin = true ∧ (seg.seq + seg.data.length) % word32 = c.rcvNxt then
    let c' := { c with rcvNxt := (c.rcvNxt + 1) % word32, rfin := true }
    (c', [c'.ackSegment])
  else (c, [])

/-- Our own end of the stream was acknowledged. -/
def inputLast (seg : Segment) : TcpConn :=
  if c.state = .finSent ∧ seg.ack = c.sndNxt then { c with state := .done } else c

/-- The answer to our `SYN`. -/
def inputSyn (seg : Segment) : TcpConn × List Segment :=
  if seg.flags.syn = true ∧ seg.flags.ack = true ∧ seg.ack = c.sndNxt then
    let c' := { c with rcvNxt := (seg.seq + 1) % word32, state := .established }
    (c', [c'.ackSegment])
  else (c, [])

/-- `tcp_input`, once it has found the connection, with the segments it sends. -/
def input (seg : Segment) : TcpConn × List Segment :=
  if seg.flags.rst then ({ c with reset := true, state := .done }, [])
  else
    let c := c.inputAck seg
    if c.state = .synSent then c.inputSyn seg
    else
      let d := c.inputData seg
      let f := d.1.inputFin seg
      (f.1.inputLast seg, d.2 ++ f.2)

/-- What a segment leaves alone: the addresses of the connection. -/
lemma fits_input (seg seg' : Segment) : (c.input seg).1.Fits seg' ↔ c.Fits seg' := by
  simp only [input, inputAck, inputSyn, inputData, inputFin, inputLast]
  split_ifs <;> rfl

@[simp]
lemma inputAck_state (seg : Segment) : (c.inputAck seg).state = c.state := by
  unfold inputAck
  split_ifs <;> rfl

/-- After the handshake a segment passes through three stages. -/
lemma input_of_synchronized {seg : Segment} (hrst : seg.flags.rst = false)
    (hstate : c.state ≠ .synSent) :
    c.input seg = ((((c.inputAck seg).inputData seg).1.inputFin seg).1.inputLast seg,
      ((c.inputAck seg).inputData seg).2 ++ (((c.inputAck seg).inputData seg).1.inputFin seg).2) := by
  have hack : (c.inputAck seg).state ≠ .synSent := by rwa [inputAck_state]
  rw [input, hrst]
  exact if_neg hack

/-! ## A program reading -/

/-- One pass of the loop of `net_tcp_recv`: the result if there is one, or `none` to go on waiting. -/
def recvReady (len : ℕ) : Option ((TcpConn × List Segment) × Except Errno (List UInt8)) :=
  if 0 < c.rxCount then
    let taken := c.rx.pops word32 tcpRx (min c.rxCount len)
    let c' := { c with rx := taken.2 }
    some ((c', if c.state = .established then [c'.ackSegment] else []), .ok taken.1)
  else if c.rfin then some ((c, []), .ok [])
  else if c.reset then some ((c, []), .error .ECONNRESET)
  else none

lemma recvReady_ok (len : ℕ) (h : 0 < c.rxCount) :
    ∃ r bytes, c.recvReady len = some (r, .ok bytes) := ⟨_, _, if_pos h⟩

lemma fits_recvReady {c : TcpConn} {len : ℕ} {r : TcpConn × List Segment}
    {reply : Except Errno (List UInt8)} (h : c.recvReady len = some (r, reply)) (seg : Segment) :
    r.1.Fits seg ↔ c.Fits seg := by
  unfold recvReady at h
  split_ifs at h
  all_goals
    obtain ⟨rfl, -⟩ := Prod.mk.inj (Option.some.inj h)
    rfl

end TcpConn

/-! ## The connections -/

/-- `conns`, and what the functions keep in static variables. -/
structure TcpTable where
  /-- There is an adapter. -/
  ready : Bool
  conns : Fin 4 → TcpConn
  /-- `lp`, the last local port that was given out. -/
  lastPort : ℕ
  /-- Every segment built so far, oldest first, with its connection. -/
  sent : List (Fin 4 × Segment)

namespace TcpTable

/-- Replace a connection that has sent some segments. -/
def set (t : TcpTable) (h : Fin 4) (r : TcpConn × List Segment) : TcpTable :=
  { t with conns := Function.update t.conns h r.1, sent := t.sent ++ r.2.map fun seg => (h, seg) }

/-- The connection a segment is for: the first one that fits. -/
def find (t : TcpTable) (seg : Segment) : Option (Fin 4) :=
  (List.finRange 4).find? fun h => (t.conns h).Fits seg

/-- `c->snd_nxt = seq; tcp_send (…); c->snd_nxt = next`, for a next hop whose address is known, so that
`ip_send` does not poll in between. -/
def emit (t : TcpTable) (h : Fin 4) (seq : ℕ) (flags : TcpFlags) (data : List UInt8) (next : ℕ) :
    TcpTable :=
  t.set h ({ t.conns h with sndNxt := next }, [{ t.conns h with sndNxt := seq }.segment flags data])

/-- The check that each call begins with: the handle of a connection in use. -/
def live (t : TcpTable) (handle : ℤ) : Option (Fin 4) :=
  (List.finRange 4).find? fun h => ((h : ℕ) : ℤ) = handle ∧ (t.conns h).used = true

end TcpTable

/-- `tcp_input`. -/
def tcpInput (t : TcpTable) (seg : Segment) : TcpTable :=
  match t.find seg with
  | none => t
  | some h => t.set h ((t.conns h).input seg)

/-- `net_poll`, which finds a segment or does not. -/
def netPoll (t : TcpTable) : Option Segment → TcpTable
  | none => t
  | some seg => tcpInput t seg

/-- Poll until something has happened or the deadline passes; whether it has happened. -/
def waitFor (done : TcpTable → Bool) : List (Option Segment) → TcpTable → TcpTable × Bool
  | [], t => (t, false)
  | p :: ps, t => if done (netPoll t p) then (netPoll t p, true) else waitFor done ps (netPoll t p)

@[simp]
lemma TcpTable.conns_set (t : TcpTable) (h : Fin 4) (r : TcpConn × List Segment) :
    (t.set h r).conns h = r.1 := Function.update_self ..

lemma TcpTable.conns_set_of_ne (t : TcpTable) {h h' : Fin 4} (hne : h' ≠ h)
    (r : TcpConn × List Segment) : (t.set h' r).conns h = t.conns h :=
  Function.update_of_ne hne.symm ..

lemma TcpTable.find_some {t : TcpTable} {seg : Segment} {h : Fin 4}
    (hfind : t.find seg = some h) : (t.conns h).Fits seg := by
  simpa using List.find?_some hfind

/-- What a poll does to one connection: nothing, or it was for this one. -/
lemma netPoll_conns (t : TcpTable) (p : Option Segment) (h : Fin 4) :
    (netPoll t p).conns h = t.conns h ∨
      ∃ seg, p = some seg ∧ (t.conns h).Fits seg ∧
        (netPoll t p).conns h = ((t.conns h).input seg).1 := by
  cases p with
  | none => exact .inl rfl
  | some seg =>
    rw [netPoll, tcpInput]
    split
    · exact .inl rfl
    rename_i h' hfind
    by_cases hh : h' = h
    · subst hh
      exact .inr ⟨seg, rfl, t.find_some hfind, t.conns_set h' _⟩
    · exact .inl (t.conns_set_of_ne hh _)

/-! ## Closing -/

/-- Our end of the stream was acknowledged. -/
def isDone (h : Fin 4) (t : TcpTable) : Bool := (t.conns h).state = .done

/-- `net_tcp_close`. -/
def netTcpClose (t : TcpTable) (handle : ℤ) (polls : List (Option Segment)) : TcpTable :=
  match t.live handle with
  | none => t
  | some h =>
    let t :=
      if (t.conns h).state = .established then
        let t := t.emit h (t.conns h).sndNxt { fin := true, ack := true } []
          (((t.conns h).sndNxt + 1) % word32)
        (waitFor (isDone h) polls (t.set h ({ t.conns h with state := .finSent }, []))).1
      else t
    t.set h ({ t.conns h with used := false }, [])

/-! ## Sending -/

/-- What `net_tcp_send` returns: the `int` its count becomes, or an error. -/
inductive SendReply
  | count (n : ℤ)
  | failed (e : Errno)
  deriving DecidableEq

/-- `(int) n` for a `uint32_t`. -/
def toInt32 (n : ℕ) : ℤ := if n < 2147483648 then n else (n : ℤ) - word32

/-- A wait for an acknowledgement is over: the peer reset the connection, or acknowledged
everything before `target`. -/
def settled (h : Fin 4) (target : ℕ) (t : TcpTable) : Bool :=
  (t.conns h).reset || decide (AtLeast (t.conns h).sndUna target)

/-- The attempts to get one chunk acknowledged, each with the polls until its deadline. -/
def sendAttempts (h : Fin 4) (seq : ℕ) (chunk : List UInt8) :
    List (List (Option Segment)) → TcpTable → TcpTable × Bool
  | [], t => (t, false)
  | w :: ws, t =>
    let next := (seq + chunk.length) % word32
    let r := waitFor (settled h next) w (t.emit h seq { psh := true, ack := true } chunk next)
    if r.2 then r else sendAttempts h seq chunk ws r.1

/-- The loop of `net_tcp_send`, from chunk `k` on. Each round takes at least one byte off the data,
so as many rounds as there are bytes are enough. -/
def sendLoop (h : Fin 4) (windows : ℕ → Fin 5 → List (Option Segment)) :
    ℕ → ℕ → ℕ → List UInt8 → TcpTable → TcpTable × SendReply
  | 0, _, sent, _, t => (t, .count (toInt32 sent))
  | n + 1, k, sent, data, t =>
    if data = [] then (t, .count (toInt32 sent))
    else
      let chunk := data.take tcpMss
      let r := sendAttempts h (t.conns h).sndNxt chunk (List.ofFn (windows k)) t
      if r.2 = false then
        (r.1, if 0 < sent then .count (toInt32 sent) else .failed .ETIMEDOUT)
      else if (r.1.conns h).reset then (r.1, .failed .ECONNRESET)
      else sendLoop h windows n (k + 1) (sent + chunk.length) (data.drop tcpMss) r.1

/-- `net_tcp_send`. -/
def netTcpSend (t : TcpTable) (handle : ℤ) (data : List UInt8)
    (windows : ℕ → Fin 5 → List (Option Segment)) : TcpTable × SendReply :=
  match t.live handle with
  | none => (t, .failed .EBADF)
  | some h =>
    if (t.conns h).reset then (t, .failed .ECONNRESET)
    else if (t.conns h).state ≠ .established then (t, .failed .EPIPE)
    else sendLoop h windows data.length 0 0 data t

/-! ## Receiving -/

/-- The loop of `net_tcp_recv`, with the polls until its deadline. -/
def recvLoop (h : Fin 4) (len : ℕ) :
    List (Option Segment) → TcpTable → TcpTable × Except Errno (List UInt8)
  | [], t =>
    match (t.conns h).recvReady len with
    | some r => (t.set h r.1, r.2)
    | none => (t, .error .ETIMEDOUT)
  | p :: ps, t =>
    match (t.conns h).recvReady len with
    | some r => (t.set h r.1, r.2)
    | none => recvLoop h len ps (netPoll t p)

/-- `net_tcp_recv`. -/
def netTcpRecv (t : TcpTable) (handle : ℤ) (len : ℕ) (polls : List (Option Segment)) :
    TcpTable × Except Errno (List UInt8) :=
  match t.live handle with
  | none => (t, .error .EBADF)
  | some h => recvLoop h len polls t

/-! ## Closed handles -/

variable {t : TcpTable} {handle : ℤ}

lemma TcpTable.live_eq_none :
    t.live handle = none ↔ ∀ h : Fin 4, ((h : ℕ) : ℤ) = handle → (t.conns h).used = false := by
  simp [live]

/-- What arrives finds only connections in use. -/
lemma netPoll_live (ht : t.live handle = none) (p : Option Segment) :
    (netPoll t p).live handle = none := by
  rw [TcpTable.live_eq_none] at ht ⊢
  intro h hh
  rcases netPoll_conns t p h with hsame | ⟨seg, -, hfits, -⟩
  · rw [hsame, ht h hh]
  · cases (ht h hh).symm.trans hfits.1

/-- A handle that was closed is refused until it is opened again, whatever still arrives. -/
theorem netTcpClose_refused (t : TcpTable) (handle : ℤ) (polls later : List (Option Segment)) :
    let t' := later.foldl netPoll (netTcpClose t handle polls)
    (∀ len polls, netTcpRecv t' handle len polls = (t', .error .EBADF)) ∧
      (∀ data windows, netTcpSend t' handle data windows = (t', .failed .EBADF)) ∧
      ∀ polls, netTcpClose t' handle polls = t' := by
  intro t'
  have hclosed : (netTcpClose t handle polls).live handle = none := by
    unfold netTcpClose
    split
    · assumption
    next h hlive =>
      refine TcpTable.live_eq_none.mpr fun h' hh' => ?_
      have hh : ((h : ℕ) : ℤ) = handle ∧ (t.conns h).used = true := by
        simpa using List.find?_some hlive
      rw [show h' = h by omega, TcpTable.conns_set]
  have hlive : t'.live handle = none :=
    List.foldlRecOn (motive := (·.live handle = none)) later netPoll hclosed
      fun _ ht p _ => netPoll_live ht p
  clear_value t'
  simp [netTcpRecv, netTcpSend, netTcpClose, hlive]

end Wos.Net
