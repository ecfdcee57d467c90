import Wos.Base.Machine
import Wos.Net.Tcp

/-!
# What a program reads from a connection

The peer of a connection has a stream of bytes to send, of any length, and its segments are slices
of that stream: they may be lost, duplicated, reordered or cut anew, and the last byte may come with
the `FIN` flag. A `Reader` is the table of connections with everything that `net_tcp_recv` has
returned for one of them. Between two reads anything may happen to the other connections, and this
one may be sent on.

Sequence numbers have 32 bits, so a segment says only modulo `2 ^ 32` where in the stream it belongs.
The stream is read faithfully as long as the place of each arriving segment is less than `2 ^ 32`
bytes from the byte that is expected next, which is what the lifetime of segments is bounded for.

## Main definitions

* `SliceSegment`, `Honest`: the segments of a peer;
* `Reader`, `ReadOp`, `Reader.exec`, `ReadOp.Allowed`: reading from a connection;
* `Receiving`: the invariant of a connection.

## Main results

* `Receiving.input`: an arriving segment keeps the invariant;
* `stream_received`: what a program reads is the peer's stream;
* `netTcpRecv_run`, `netTcpSend_run`: the calls are runs of the machine.
-/

namespace Wos.Net

open List TcpTable Nat Except

/-! ## The peer -/

/-- A segment that carries the slice of a stream at an offset; with `FIN`, up to its end. -/
structure SliceSegment (irs : ℕ) (stream : List UInt8) (seg : Segment) (off : ℕ) : Prop where
  /-- It begins in the stream or at its end. -/
  off_le : off ≤ stream.length
  /-- Its number is its place, in 32 bits. -/
  seq_eq : seg.seq = (irs + 1 + off) % word32
  /-- It carries what stands there. -/
  data : seg.data <+: stream.drop off
  /-- With `FIN`, up to the end. -/
  fin : seg.flags.fin = true → seg.data = stream.drop off

/-- The segments of a peer that chose the initial sequence number `irs`: a reset, its `SYN` again, or
a slice of its stream whose two ends meet a condition on places in the stream. -/
def Honest (irs : ℕ) (stream : List UInt8) (near : ℕ → Prop) (seg : Segment) : Prop :=
  seg.flags.rst = true ∨
    (seg.flags.syn = true ∧ seg.seq = irs ∧ seg.data = [] ∧ seg.flags.fin = false) ∨
    ∃ off, SliceSegment irs stream seg off ∧ near off ∧ near (off + seg.data.length)

/-- Two places in a stream that sequence numbers can tell apart. -/
def Near (a b : ℕ) : Prop := a < b + word32 ∧ b < a + word32

lemma Near.eq {irs a b : ℕ} (h : Near a b)
    (hmod : (irs + 1 + a) % word32 = (irs + 1 + b) % word32) : a = b := by
  simp only [Near, word32] at h hmod
  omega

/-! ## Reading -/

/-- The connections, and what `net_tcp_recv` has returned so far for one of them. -/
structure Reader where
  table : TcpTable
  got : List UInt8

/-- What may happen to a connection that a program reads from. -/
inductive ReadOp
  /-- A segment arrives, while some call polls the card. -/
  | arrive (seg : Segment)
  /-- `net_tcp_recv` looks at the ring. -/
  | recv (len : ℕ)
  /-- `net_tcp_send` makes an attempt. -/
  | emit (seq : ℕ) (flags : TcpFlags) (data : List UInt8) (next : ℕ)
  /-- A call on another handle changes its connection and sends something. -/
  | other (h : Fin 4) (r : TcpConn × List Segment)

/-- What a read returned: nothing yet, an error, or bytes. -/
def Reader.exec (h : Fin 4) (s : Reader) :
    ReadOp → Reader × Option (Except Errno (List UInt8))
  | .arrive seg => ({ s with table := tcpInput s.table seg }, none)
  | .recv len =>
    match (s.table.conns h).recvReady len with
    | none => (s, none)
    | some (r, .error e) => ({ s with table := s.table.set h r }, some (.error e))
    | some (r, .ok bytes) => (⟨s.table.set h r, s.got ++ bytes⟩, some (.ok bytes))
  | .emit seq flags data next => ({ s with table := s.table.emit h seq flags data next }, none)
  | .other h' r => ({ s with table := s.table.set h' r }, none)

/-- The place in the stream that a connection expects next, with the `FIN` as one more place. -/
def Reader.place (h : Fin 4) (s : Reader) : ℕ :=
  s.got.length + (s.table.conns h).rxCount + (if (s.table.conns h).rfin then 1 else 0)

/-- The segments for the connection are those of the peer, and near the place expected next as far
as `near` asks for it. -/
def ReadOp.Allowed (near : ℕ → ℕ → Prop) (h : Fin 4) (irs : ℕ) (stream : List UInt8) (s : Reader) :
    ReadOp → Prop
  | .arrive seg => (s.table.conns h).Fits seg → Honest irs stream (near (s.place h)) seg
  | .other h' _ => h' ≠ h
  | _ => True

/-- A connection as `net_tcp_open` returns it: established, nothing received. -/
structure Opened (irs : ℕ) (c : TcpConn) : Prop where
  used : c.used = true
  state : c.state = .established
  /-- The first byte of the stream is expected. -/
  next : c.rcvNxt = (irs + 1) % word32
  /-- Nothing waits to be read. -/
  ring : ∃ cells, c.rx = ⟨cells, 0, 0⟩
  /-- The end has not been seen. -/
  rfin : c.rfin = false

/-! ## The invariant -/

/-- A connection between two steps: what was read and what is in the ring are the beginning of the
stream, and the next byte expected is the one after. -/
structure Receiving (irs : ℕ) (stream got : List UInt8) (c : TcpConn) (held : List UInt8) :
    Prop where
  state : c.state ≠ .synSent
  /-- The ring holds the bytes that were not read yet. -/
  queue : c.rx.Queue word32 tcpRx held
  /-- They go on where the reader is. -/
  begins : got ++ held <+: stream
  /-- The byte after them is expected, or the one after the end. -/
  next : c.rcvNxt =
    (irs + 1 + (got.length + held.length + (if c.rfin then 1 else 0))) % word32
  /-- Once the end was seen, everything has arrived. -/
  fin : c.rfin = true → got ++ held = stream

variable {seg : Segment} {off len : ℕ} {reply : Except Errno (List UInt8)}

variable {data : List UInt8} {r : TcpConn × List Segment} {h' : Fin 4}

namespace Receiving

variable {irs : ℕ} {stream got held : List UInt8} {c c' : TcpConn}

lemma of_opened (h : Opened irs c) : Receiving irs stream [] c [] where
  state := by
    rw [h.state]
    decide
  queue := by
    obtain ⟨cells, hring⟩ := h.ring
    rw [hring]
    exact ⟨(by decide : 0 < word32), rfl, zero_le tcpRx, fun _ => .inl rfl⟩
  begins := nil_prefix
  next := by
    rw [h.next, h.rfin]
    rfl
  fin hfin := by
    rw [h.rfin] at hfin
    cases hfin

variable (h : Receiving irs stream got c held)

include h

/-- Only the ring, the number expected next and the `FIN` matter. -/
lemma congr (hstate : c'.state ≠ .synSent) (hrx : c'.rx = c.rx) (hnext : c'.rcvNxt = c.rcvNxt)
    (hfin : c'.rfin = c.rfin) : Receiving irs stream got c' held where
  state := hstate
  queue := hrx ▸ h.queue
  begins := h.begins
  next := by
    rw [hnext, hfin]
    exact h.next
  fin hf := h.fin (hfin ▸ hf)

lemma rxCount_eq : c.rxCount = held.length := h.queue.count_eq (by decide)

lemma rxFree_eq : c.rxFree = tcpRx - held.length := by
  have hlen := h.queue.length_le
  rw [TcpConn.rxFree, h.rxCount_eq, sub32]
  simp only [word32, tcpRx] at hlen ⊢
  omega

/-- The window that a segment advertises is the free space of the ring. -/
lemma window_eq (flags : TcpFlags) (data : List UInt8) :
    ∀ p ∈ [c.segment flags data], p.window = tcpRx - held.length := by
  intro p hp
  rw [mem_singleton.mp hp]
  change (if 65535 < c.rxFree then 65535 else c.rxFree) % 65536 = _
  have hle : c.rxFree ≤ tcpRx := by
    rw [h.rxFree_eq]
    exact sub_le ..
  have hsmall : c.rxFree < 65535 := lt_of_le_of_lt hle (by decide)
  rw [if_neg (by omega), mod_eq_of_lt (by omega), h.rxFree_eq]

lemma inputAck (seg : Segment) : Receiving irs stream got (c.inputAck seg) held := by
  unfold TcpConn.inputAck
  split_ifs
  · exact h.congr h.state rfl rfl rfl
  · exact h

lemma inputLast (seg : Segment) : Receiving irs stream got (c.inputLast seg) held := by
  unfold TcpConn.inputLast
  split_ifs
  · exact h.congr (fun hsyn => by cases hsyn) rfl rfl rfl
  · exact h

/-- Data that is in order continues the stream. -/
lemma append (hdata : data <+: stream.drop (got.length + held.length)) :
    got ++ (held ++ data) <+: stream := by
  obtain ⟨rest, hrest⟩ := hdata
  have htake : got ++ held = stream.take (got.length + held.length) := by
    rw [← length_append]
    exact prefix_iff_eq_take.mp h.begins
  refine ⟨rest, ?_⟩
  rw [← append_assoc, htake, append_assoc, hrest, take_append_drop]

/-- Nothing comes after the `FIN`: what is expected next lies past the end of the stream. -/
lemma rfin_eq_false
    (hle : got.length + held.length + (if c.rfin then 1 else 0) ≤ stream.length) :
    c.rfin = false := by
  by_contra htrue
  rw [Bool.not_eq_false] at htrue
  have hall := congrArg length (h.fin htrue)
  rw [length_append] at hall
  rw [if_pos htrue] at hle
  omega

/-- Data go into the ring exactly where they are expected, with an honest window. -/
lemma inputData (hslice : SliceSegment irs stream seg off)
    (hnear : Near (got.length + held.length + (if c.rfin then 1 else 0)) off) :
    Receiving irs stream got (c.inputData seg).1 (if c.Accepts seg then held ++ seg.data else held) ∧
      (∀ p ∈ (c.inputData seg).2,
        p.window = tcpRx - (if c.Accepts seg then held ++ seg.data else held).length) ∧
      (c.Accepts seg → got.length + held.length = off ∧ c.rfin = false) := by
  unfold TcpConn.inputData
  by_cases haccept : c.Accepts seg
  · simp only [if_pos haccept]
    obtain ⟨hpos, hseq, hroom⟩ := haccept
    have hoff : got.length + held.length + (if c.rfin then 1 else 0) = off := by
      apply hnear.eq
      rw [← h.next, ← hseq, hslice.seq_eq]
    have hfin : c.rfin = false := h.rfin_eq_false (hoff ▸ hslice.off_le)
    rw [hfin] at hoff
    have hplace : got.length + held.length = off := hoff
    have hdata : seg.data <+: stream.drop (got.length + held.length) := hplace ▸ hslice.data
    rw [h.rxFree_eq] at hroom
    have hheld' : Receiving irs stream got
        { c with
          rx := c.rx.pushAll word32 tcpRx seg.data
          rcvNxt := (c.rcvNxt + seg.data.length) % word32 } (held ++ seg.data) :=
      { state := h.state
        queue := h.queue.pushAll (by decide) (by omega)
        begins := h.append hdata
        next := by
          change (c.rcvNxt + seg.data.length) % word32 = _
          rw [h.next, hfin, mod_add_mod, length_append]
          congr 1
          omega
        fin := fun hf => by
          rw [show c.rfin = true from hf] at hfin
          cases hfin }
    exact ⟨hheld', hheld'.window_eq _ _, fun _ => ⟨hplace, hfin⟩⟩
  · simp only [if_neg haccept]
    split_ifs
    · exact ⟨h, h.window_eq _ _, fun hyes => absurd hyes haccept⟩
    · exact ⟨h, fun p hp => absurd hp not_mem_nil, fun hyes => absurd hyes haccept⟩

/-- The end is taken only when everything before it has arrived. -/
lemma inputFin (hslice : SliceSegment irs stream seg off)
    (hnear : Near (got.length + held.length + (if c.rfin then 1 else 0)) (off + seg.data.length)) :
    Receiving irs stream got (c.inputFin seg).1 held ∧
      ∀ p ∈ (c.inputFin seg).2, p.window = tcpRx - held.length := by
  unfold TcpConn.inputFin
  split_ifs with haccept
  · obtain ⟨hfin, hseq⟩ := haccept
    have hend : off + seg.data.length = stream.length := by
      rw [hslice.fin hfin, length_drop]
      have := hslice.off_le
      omega
    have hplace : got.length + held.length + (if c.rfin then 1 else 0) = off + seg.data.length := by
      apply hnear.eq
      rw [← h.next, ← hseq, hslice.seq_eq, mod_add_mod, add_assoc]
    have hfirst : c.rfin = false := h.rfin_eq_false (hplace.trans hend).le
    rw [hfirst] at hplace
    have hall : got ++ held = stream := by
      apply h.begins.eq_of_length
      rw [length_append]
      exact hplace.trans hend
    have hdone : Receiving irs stream got
        { c with rcvNxt := (c.rcvNxt + 1) % word32, rfin := true } held :=
      { h with
        next := by
          rw [h.next, hfirst, mod_add_mod]
          rfl
        fin := fun _ => hall }
    exact ⟨hdone, hdone.window_eq _ _⟩
  · exact ⟨h, fun p hp => absurd hp not_mem_nil⟩

/-- What is in the ring after a segment arrived. -/
def heldAfter (c : TcpConn) (seg : Segment) (held : List UInt8) : List UInt8 :=
  if seg.flags.rst = false ∧ c.Accepts seg then held ++ seg.data else held

/-- An arriving segment of the peer keeps the invariant, and every answer to it advertises the free
space. -/
lemma input
    (hseg : Honest irs stream (Near (got.length + held.length + (if c.rfin then 1 else 0))) seg) :
    Receiving irs stream got (c.input seg).1 (heldAfter c seg held) ∧
      ∀ p ∈ (c.input seg).2, p.window = tcpRx - (heldAfter c seg held).length := by
  have hack := h.inputAck seg
  have hsame : (c.inputAck seg).rfin = c.rfin ∧ ((c.inputAck seg).Accepts seg ↔ c.Accepts seg) := by
    unfold TcpConn.inputAck
    split_ifs <;> exact ⟨rfl, Iff.rfl⟩
  by_cases hrst : seg.flags.rst = true
  · rw [TcpConn.input, if_pos hrst, heldAfter, if_neg fun hno => by simp [hrst] at hno]
    exact ⟨h.congr (fun hs => by cases hs) rfl rfl rfl, fun p hp => absurd hp not_mem_nil⟩
  rw [Bool.not_eq_true] at hrst
  rw [c.input_of_synchronized hrst h.state]
  rcases hseg with hrst' | ⟨-, -, hdata, hfin⟩ | ⟨off, hslice, hstart, hend⟩
  · rw [hrst] at hrst'
    cases hrst'
  · -- the peer's `SYN` again: it has no data and no `FIN`
    have hno : ¬ c.Accepts seg := fun hyes => by simp [TcpConn.Accepts, hdata] at hyes
    have hnodata : (c.inputAck seg).inputData seg = (c.inputAck seg, []) := by
      simp [TcpConn.inputData, hsame.2, hno, hdata]
    have hnofin : (c.inputAck seg).inputFin seg = (c.inputAck seg, []) := by
      simp [TcpConn.inputFin, hfin]
    rw [heldAfter, if_neg fun hyes => hno hyes.2]
    simp only [hnodata, hnofin]
    exact ⟨hack.inputLast seg, fun p hp => absurd hp not_mem_nil⟩
  · rw [← hsame.1] at hstart hend
    obtain ⟨hrecv, hwin, hplace⟩ := hack.inputData hslice hstart
    have hheld : (if (c.inputAck seg).Accepts seg then held ++ seg.data else held)
        = heldAfter c seg held := by
      simp only [heldAfter, hsame.2, hrst, true_and]
    rw [hheld] at hrecv hwin
    have hrfin : ((c.inputAck seg).inputData seg).1.rfin = (c.inputAck seg).rfin := by
      unfold TcpConn.inputData
      split_ifs <;> rfl
    have hend' : Near (got.length + (heldAfter c seg held).length
        + (if ((c.inputAck seg).inputData seg).1.rfin then 1 else 0)) (off + seg.data.length) := by
      rw [hrfin, ← hheld]
      by_cases haccept : (c.inputAck seg).Accepts seg
      · obtain ⟨hoff, hno⟩ := hplace haccept
        have hplace' : got.length + (held ++ seg.data).length + 0 = off + seg.data.length := by
          rw [length_append]
          omega
        rw [if_pos haccept, hno, if_neg Bool.false_ne_true, hplace']
        exact ⟨Nat.lt_add_of_pos_right (by decide), Nat.lt_add_of_pos_right (by decide)⟩
      · rw [if_neg haccept]
        exact hend
    obtain ⟨hrecv', hwin'⟩ := hrecv.inputFin hslice hend'
    exact ⟨hrecv'.inputLast seg, forall_mem_append.mpr ⟨hwin, hwin'⟩⟩

/-- What one look at the ring returns. -/
lemma recvReady (hready : c.recvReady len = some (r, reply)) :
    ∃ bytes held', held = bytes ++ held' ∧ Receiving irs stream (got ++ bytes) r.1 held' ∧
      (∀ p ∈ r.2, p.window = tcpRx - held'.length) ∧
      ((reply = .ok bytes ∧ (bytes = [] → len = 0 ∨ got = stream)) ∨
        (bytes = [] ∧ ∃ e, reply = .error e)) := by
  have hnone : ∀ p : Segment, p ∈ [] → p.window = tcpRx - held.length :=
    fun p hp => absurd hp not_mem_nil
  rw [TcpConn.recvReady, h.rxCount_eq] at hready
  by_cases hsome : 0 < held.length
  · -- some bytes leave the ring
    rw [if_pos hsome] at hready
    obtain ⟨htake, hdrop⟩ := h.queue.pops (by decide) (min_le_left held.length len)
    obtain ⟨rfl, rfl⟩ := Prod.mk.inj (Option.some.inj hready)
    rw [htake]
    have hsplit : held.take (min held.length len) ++ held.drop (min held.length len) = held :=
      take_append_drop ..
    have hrecv : Receiving irs stream (got ++ held.take (min held.length len))
        { c with rx := (c.rx.pops word32 tcpRx (min held.length len)).2 }
        (held.drop (min held.length len)) :=
      { state := h.state
        queue := hdrop
        begins := by
          rw [append_assoc, hsplit]
          exact h.begins
        next := by
          rw [length_append, length_take, length_drop]
          rw [h.next]
          congr 3
          omega
        fin := fun hf => by
          rw [append_assoc, hsplit]
          exact h.fin hf }
    refine ⟨_, _, hsplit.symm, hrecv, fun p hp => ?_, .inl ⟨rfl, fun hnil => .inl ?_⟩⟩
    · split_ifs at hp
      · exact hrecv.window_eq _ _ p hp
      · cases hp
    · have hlen := congrArg length hnil
      rw [length_take, length_nil] at hlen
      omega
  · rw [if_neg hsome] at hready
    have hheld : held = [] := length_eq_zero_iff.mp (by omega)
    have hsame : Receiving irs stream (got ++ []) c held := by
      rw [append_nil]
      exact h
    split_ifs at hready with hfin hreset
    · obtain ⟨rfl, rfl⟩ := Prod.mk.inj (Option.some.inj hready)
      refine ⟨[], held, rfl, hsame, hnone, .inl ⟨rfl, fun _ => .inr ?_⟩⟩
      have hall := h.fin hfin
      rwa [hheld, append_nil] at hall
    · obtain ⟨rfl, rfl⟩ := Prod.mk.inj (Option.some.inj hready)
      exact ⟨[], held, rfl, hsame, hnone, .inr ⟨rfl, _, rfl⟩⟩

end Receiving

/-! ## Whole runs -/

variable {got : List UInt8}

section Runs

variable {near : ℕ → ℕ → Prop} {h : Fin 4} {irs : ℕ} {stream : List UInt8} {s s' : Reader}

/-- The connection that is read from, between two steps. -/
def Reader.Receives (h : Fin 4) (irs : ℕ) (stream : List UInt8) (s : Reader) : Prop :=
  ∃ held, Receiving irs stream s.got (s.table.conns h) held

/-- The segments sent for the connection in a step advertise no more than the free space. -/
def Reader.Advertises (h : Fin 4) (s s' : Reader) : Prop :=
  ∃ out, s'.table.sent = s.table.sent ++ out ∧
    ∀ p ∈ out, p.1 = h → p.2.window ≤ tcpRx - (s'.table.conns h).rxCount

/-- A step on another connection. -/
lemma advertises_other (hne : h' ≠ h) (s : Reader) (r : TcpConn × List Segment) :
    s.Advertises h { s with table := s.table.set h' r } := by
  refine ⟨_, rfl, fun p hp hh => ?_⟩
  obtain ⟨seg, -, rfl⟩ := mem_map.mp hp
  exact absurd hh hne

/-- A step on this connection. -/
lemma Receiving.advertises {held : List UInt8} (hrecv : Receiving irs stream got r.1 held)
    (hwin : ∀ p ∈ r.2, p.window = tcpRx - held.length)
    (s : Reader) : s.Advertises h ⟨s.table.set h r, got⟩ := by
  refine ⟨_, rfl, fun p hp _ => ?_⟩
  obtain ⟨seg, hseg, rfl⟩ := mem_map.mp hp
  rw [conns_set, hrecv.rxCount_eq]
  exact (hwin seg hseg).le

/-- A segment keeps the beginning of the stream. -/
lemma Reader.Receives.arrive (hs : s.Receives h irs stream)
    (hseg : ReadOp.Allowed Near h irs stream s (.arrive seg)) :
    Reader.Receives h irs stream { s with table := tcpInput s.table seg } ∧
      s.Advertises h { s with table := tcpInput s.table seg } := by
  obtain ⟨held, hrecv⟩ := hs
  unfold tcpInput
  split
  · exact ⟨⟨held, hrecv⟩, [], (append_nil _).symm, fun p hp => absurd hp not_mem_nil⟩
  rename_i h' hfind
  by_cases hh : h' = h
  · subst hh
    have hhonest := hseg (find_some hfind)
    rw [Reader.place, hrecv.rxCount_eq] at hhonest
    obtain ⟨hrecv', hwin⟩ := hrecv.input hhonest
    refine ⟨⟨Receiving.heldAfter (s.table.conns h') seg held, ?_⟩, hrecv'.advertises hwin s⟩
    rw [conns_set]
    exact hrecv'
  · refine ⟨⟨held, ?_⟩, advertises_other hh s _⟩
    rw [conns_set_of_ne _ hh]
    exact hrecv

/-- One step keeps the invariant and advertises the free space; a read returns bytes of the stream,
and none only at its end. -/
lemma Reader.Receives.exec (hs : s.Receives h irs stream) {op : ReadOp}
    (hop : op.Allowed Near h irs stream s) :
    (s.exec h op).1.Receives h irs stream ∧ s.Advertises h (s.exec h op).1 ∧
      ∀ len, op = .recv len → 0 < len → (s.exec h op).2 = some (.ok []) → s.got = stream := by
  cases op with
  | arrive seg =>
    obtain ⟨hrecv, hadv⟩ := hs.arrive hop
    exact ⟨hrecv, hadv, fun len hlen => by cases hlen⟩
  | emit seq flags data next =>
    obtain ⟨held, hrecv⟩ := hs
    have hsame : Receiving irs stream s.got { s.table.conns h with sndNxt := next } held :=
      hrecv.congr hrecv.state rfl rfl rfl
    have hat : Receiving irs stream s.got { s.table.conns h with sndNxt := seq } held :=
      hrecv.congr hrecv.state rfl rfl rfl
    refine ⟨⟨held, ?_⟩, hsame.advertises (hat.window_eq flags data) s, fun len hlen => by cases hlen⟩
    change Receiving irs stream s.got ((s.table.set h _).conns h) held
    rw [conns_set]
    exact hsame
  | other h' r =>
    obtain ⟨held, hrecv⟩ := hs
    refine ⟨⟨held, ?_⟩, advertises_other hop s r, fun len hlen => by cases hlen⟩
    change Receiving irs stream s.got ((s.table.set h' r).conns h) held
    rw [conns_set_of_ne _ hop]
    exact hrecv
  | recv len =>
    obtain ⟨held, hrecv⟩ := hs
    cases hready : (s.table.conns h).recvReady len with
    | none =>
      simp only [Reader.exec, hready]
      exact ⟨⟨held, hrecv⟩, ⟨[], (append_nil _).symm, fun p hp => absurd hp not_mem_nil⟩,
        fun _ _ _ hreply => by cases hreply⟩
    | some result =>
      obtain ⟨r, reply⟩ := result
      obtain ⟨bytes, held', -, hrecv', hwin, hreply⟩ := hrecv.recvReady hready
      have hnext : Receiving irs stream (s.got ++ bytes) ((s.table.set h r).conns h) held' := by
        rw [conns_set]
        exact hrecv'
      rcases hreply with ⟨rfl, heof⟩ | ⟨rfl, e, rfl⟩
      · simp only [Reader.exec, hready]
        refine ⟨⟨held', hnext⟩, hrecv'.advertises hwin s, fun len' hlen hpos hempty => ?_⟩
        obtain rfl := ReadOp.recv.inj hlen
        have hnil : bytes = [] := ok.inj (Option.some.inj hempty)
        exact (heof hnil).resolve_left (by omega)
      · simp only [Reader.exec, hready]
        rw [append_nil] at hnext hrecv'
        refine ⟨⟨held', hnext⟩, hrecv'.advertises hwin s, fun _ _ _ hempty => ?_⟩
        cases hempty

/-- What a program reads is the peer's stream. However the segments arrive, as long as they are near
the place expected next: the bytes returned so far are the beginning of the stream, the ring holds no
more than it has room for, a read that asks for bytes reports the end of the stream only when all of
it was returned, and no segment advertises more than the free space. -/
theorem stream_received {s₀ : Reader} {ls : List (ReadOp × Option (Except Errno (List UInt8)))}
    (hopen : Opened irs (s₀.table.conns h)) (hgot : s₀.got = [])
    (hrun : Run (execStep (ReadOp.Allowed Near h irs stream) (Reader.exec h)) s₀ ls s) :
    s.got <+: stream ∧ (s.table.conns h).rxCount ≤ tcpRx ∧
      ∀ op reply s', execStep (ReadOp.Allowed Near h irs stream) (Reader.exec h) s (op, reply) s' →
        s.Advertises h s' ∧
        ∀ len, op = .recv len → 0 < len → reply = some (.ok []) → s.got = stream := by
  have hstart : s₀.Receives h irs stream := by
    refine ⟨[], ?_⟩
    rw [hgot]
    exact Receiving.of_opened hopen
  have hs : s.Receives h irs stream := by
    refine hrun.invariant (fun s l s' hs hstep => ?_) hstart
    have := (hs.exec hstep.1).1
    rwa [hstep.2] at this
  obtain ⟨held, hrecv⟩ := hs
  refine ⟨(prefix_append _ _).trans hrecv.begins, ?_, fun op reply s' hstep => ?_⟩
  · rw [hrecv.rxCount_eq]
    exact hrecv.queue.length_le
  · obtain ⟨-, hadv, heof⟩ := Reader.Receives.exec ⟨held, hrecv⟩ hstep.1
    rw [hstep.2] at hadv heof
    exact ⟨hadv, heof⟩

end Runs

/-- A connection to port 80 that was just opened, with the peer's sequence numbers at the point of
wrapping around. -/
def justOpened : TcpConn :=
  { TcpConn.zero with
    used := true, state := .established, rip := 1, rport := 80, lport := 1000,
    rcvNxt := 4294967295 }

/-- A program about to read from the only connection. -/
def firstReader : Reader where
  table := ⟨true, fun h => if h = 0 then justOpened else TcpConn.zero, 1000, []⟩
  got := []

/-- A segment of the peer. -/
def peerSegment (off : ℕ) (fin : Bool) (data : List UInt8) : Segment :=
  ⟨1, 80, 1000, (4294967294 + 1 + off) % word32, 0, { fin := fin, ack := true }, 65535, data⟩

lemma opened_justOpened : Opened 4294967294 justOpened := ⟨rfl, rfl, rfl, ⟨_, rfl⟩, rfl⟩

lemma peerSegment_slice {stream : List UInt8} {fin : Bool} (hoff : off ≤ stream.length)
    (hdata : data <+: stream.drop off) (hfin : fin = true → data = stream.drop off) :
    SliceSegment 4294967294 stream (peerSegment off fin data) off :=
  ⟨hoff, rfl, hdata, hfin⟩

/-- Three bytes across the wrap-around: the last two arrive first and are dropped, then all three
come with the `FIN`, then the middle one again. -/
def threeBytes : List ReadOp :=
  [.arrive (peerSegment 1 true [2, 3]), .recv 5, .arrive (peerSegment 0 true [1, 2, 3]), .recv 2,
    .arrive (peerSegment 1 false [2]), .recv 2, .recv 2]

theorem stream_received_threeBytes :
    (play (Reader.exec 0) firstReader threeBytes).got = [1, 2, 3] ∧
      (play (Reader.exec 0) firstReader threeBytes).got <+: [1, 2, 3] := by
  have hhonest : ∀ {place off : ℕ} {seg : Segment}, SliceSegment 4294967294 [1, 2, 3] seg off →
      place < 10 → off + seg.data.length < 10 →
      Honest 4294967294 [1, 2, 3] (Near place) seg := by
    intro place off seg hslice hplace hend
    refine .inr (.inr ⟨off, hslice, ?_, ?_⟩) <;>
      constructor <;> simp only [word32] <;> omega
  have hlegal : Legal (ReadOp.Allowed Near 0 4294967294 [1, 2, 3]) (Reader.exec 0) firstReader
      threeBytes := by
    refine ⟨fun _ => ?_, trivial, fun _ => ?_, trivial, fun _ => ?_, trivial, trivial, trivial⟩ <;>
      exact hhonest (peerSegment_slice (by decide) (by decide) (by decide)) (by decide)
        (by decide)
  exact ⟨by decide, (stream_received opened_justOpened rfl hlegal.run).1⟩

/-! ## Old duplicates -/

variable {t : TcpTable}

lemma find_zero (hfits : (t.conns 0).Fits seg) : t.find seg = some 0 := by
  rw [TcpTable.find, finRange_succ, find?_cons_of_pos (by simpa using hfits)]

/-- Zeroes that arrive one by one, each read at once. -/
lemma zeroes_received {stream : List UInt8} {n : ℕ}
    (hhonest : ∀ k < n, Honest 4294967294 stream (fun _ => True) (peerSegment k false [0]))
    {k : ℕ} (hk : k ≤ n) :
    ∃ ls s, Run (execStep (ReadOp.Allowed (fun _ _ => True) 0 4294967294 stream) (Reader.exec 0))
        firstReader ls s ∧
      s.got = replicate k 0 ∧
      Receiving 4294967294 (replicate n 0) s.got (s.table.conns 0) [] ∧
      ∀ off, (s.table.conns 0).Fits (peerSegment off false [0]) := by
  induction k with
  | zero =>
    exact ⟨[], firstReader, .nil _, rfl, Receiving.of_opened opened_justOpened,
      fun _ => ⟨rfl, rfl, rfl, rfl⟩⟩
  | succ k ih =>
    obtain ⟨ls, s, hrun, hgot, hrecv, hfits⟩ := ih (by omega)
    set c := s.table.conns 0
    have hlen : s.got.length = k := by rw [hgot, length_replicate]
    have hnofin : c.rfin = false := by
      by_contra htrue
      have hall := congrArg length (hrecv.fin (by simpa using htrue))
      rw [append_nil, hlen, length_replicate] at hall
      omega
    -- the segment is accepted
    have hslice : SliceSegment 4294967294 (replicate n 0) (peerSegment k false [0]) k := by
      refine peerSegment_slice ?_ ?_ fun h => by cases h
      · rw [length_replicate]
        omega
      · rw [drop_replicate, show n - k = (n - k - 1) + 1 by omega, replicate_succ]
        exact ⟨_, rfl⟩
    have hplace : s.got.length + ([] : List UInt8).length + (if c.rfin then 1 else 0) = k := by
      rw [hnofin, hlen]
      rfl
    have hnear : ∀ j, j = k ∨ j = k + 1 → Near k j := by
      intro j hj
      constructor <;> simp only [word32] <;> omega
    have hseg : Honest 4294967294 (replicate n 0)
        (Near (s.got.length + ([] : List UInt8).length + (if c.rfin then 1 else 0)))
        (peerSegment k false [0]) := by
      rw [hplace]
      exact .inr (.inr ⟨k, hslice, hnear k (.inl rfl), hnear (k + 1) (.inr rfl)⟩)
    have hin := (hrecv.input hseg).1
    have haccept : c.Accepts (peerSegment k false [0]) := by
      refine ⟨one_pos, ?_, ?_⟩
      · rw [hrecv.next, hplace]
        rfl
      · rw [hrecv.rxFree_eq]
        exact (by decide : 1 ≤ tcpRx - 0)
    rw [Receiving.heldAfter, if_pos ⟨rfl, haccept⟩] at hin
    -- and its byte is read
    obtain ⟨r, bytes, hready⟩ := TcpConn.recvReady_ok _ 1
      (hin.rxCount_eq.symm ▸ one_pos : 0 < (c.input (peerSegment k false [0])).1.rxCount)
    obtain ⟨bytes', held', hsplit, hrecv', -, hreply⟩ := hin.recvReady hready
    have hbytes : bytes' = [0] ∧ held' = [] ∧ bytes = bytes' := by
      rcases hreply with ⟨hok, heof⟩ | ⟨-, e, herr⟩
      · have hne : bytes' ≠ [] := by
          intro hnil
          rcases heof hnil with hzero | hall
          · cases hzero
          · have := congrArg length hall
            rw [hlen, length_replicate] at this
            omega
        obtain ⟨b, rest, rfl⟩ := exists_cons_of_ne_nil hne
        obtain ⟨hb, hrest⟩ := cons.inj (hsplit.trans (cons_append ..))
        obtain ⟨hrest, hheld'⟩ := append_eq_nil_iff.mp hrest.symm
        exact ⟨by rw [hrest, hb], hheld', ok.inj hok⟩
      · cases herr
    obtain ⟨rfl, rfl, rfl⟩ := hbytes
    have hconn : (tcpInput s.table (peerSegment k false [0])).conns 0
        = (c.input (peerSegment k false [0])).1 := by
      rw [tcpInput, find_zero (hfits k)]
      exact s.table.conns_set 0 _
    have hstep : Reader.exec 0 { s with table := tcpInput s.table (peerSegment k false [0]) }
        (.recv 1) = (⟨(tcpInput s.table (peerSegment k false [0])).set 0 r, s.got ++ [0]⟩,
          some (.ok [0])) := by
      simp only [Reader.exec, hconn, hready]
    have htwo : Run (execStep (ReadOp.Allowed (fun _ _ => True) 0 4294967294 stream)
        (Reader.exec 0)) s [(.arrive (peerSegment k false [0]), none), (.recv 1, some (.ok [0]))]
        ⟨(tcpInput s.table (peerSegment k false [0])).set 0 r, s.got ++ [0]⟩ :=
      .cons ⟨fun _ => hhonest k (by omega), rfl⟩ (.cons ⟨trivial, hstep⟩ (.nil _))
    refine ⟨_, _, hrun.trans htwo, ?_, ?_, fun off => ?_⟩
    · rw [hgot, replicate_succ']
    · rw [conns_set]
      exact hrecv'
    · rw [conns_set]
      exact (TcpConn.fits_recvReady hready _).mpr ((c.fits_input _ _).mpr (hfits off))

/-- A stream of `2 ^ 32` zeroes that ends in a one. -/
def longStream (n : ℕ) : List UInt8 := List.replicate n 0 ++ [1]

/-- Two ways to read what the peer never sent. A duplicate of the first byte that arrives `2 ^ 32`
bytes late is taken for the byte expected next. And a read that asks for no bytes returns none
before the end of the stream. -/
theorem not_stream_received :
    (∃ ls s, Run (execStep (ReadOp.Allowed (fun _ _ => True) 0 4294967294 (longStream word32))
      (Reader.exec 0)) firstReader ls s ∧ ¬ s.got <+: longStream word32) ∧
    ∃ ls s, Run (execStep (ReadOp.Allowed Near 0 4294967294 [1, 2, 3]) (Reader.exec 0)) firstReader
      ls s ∧ (s.exec 0 (.recv 0)).2 = some (.ok []) ∧ s.got ≠ [1, 2, 3] := by
  constructor
  · -- every segment is a slice of the stream, the last one of its beginning
    have hhonest : ∀ k < word32 + 1, Honest 4294967294 (longStream word32) (fun _ => True)
        (peerSegment k false [0]) := by
      intro k hk
      have hlt : k % word32 < word32 := mod_lt _ (by decide)
      refine Or.inr (Or.inr ⟨k % word32, ⟨?_, ?_, ?_, fun h => by cases h⟩, trivial, trivial⟩)
      · rw [longStream, length_append, length_replicate]
        omega
      · change (4294967294 + 1 + k) % word32 = _
        rw [add_mod_mod]
      rw [longStream, drop_append_of_le_length (by rw [length_replicate]; omega),
        drop_replicate, show word32 - k % word32 = (word32 - k % word32 - 1) + 1 by omega,
        replicate_succ]
      exact ⟨_, rfl⟩
    obtain ⟨ls, s, hrun, hgot, -⟩ := zeroes_received hhonest le_rfl
    refine ⟨ls, s, hrun, fun hall => ?_⟩
    have heq : s.got = longStream word32 := by
      apply hall.eq_of_length
      rw [hgot, longStream, length_append, length_replicate, length_replicate]
      rfl
    have hone : (1 : UInt8) ∈ s.got := by
      rw [heq, longStream]
      exact mem_append_right _ (mem_singleton_self 1)
    rw [hgot] at hone
    exact absurd (eq_of_mem_replicate hone) (by decide)
  · have hrun : Run (execStep (ReadOp.Allowed Near 0 4294967294 [1, 2, 3]) (Reader.exec 0))
        firstReader (labels (Reader.exec 0) firstReader [.arrive (peerSegment 0 false [1])])
        (play (Reader.exec 0) firstReader [.arrive (peerSegment 0 false [1])]) := by
      apply Legal.run
      refine ⟨fun _ => .inr (.inr ⟨0, peerSegment_slice (by decide) (by decide) (by decide), ?_,
        ?_⟩), trivial⟩
      · exact ⟨by decide, by decide⟩
      · exact ⟨by decide, by decide⟩
    exact ⟨_, _, hrun, by decide, by decide⟩

/-! ## The calls -/

section Calls

variable {h : Fin 4} {irs : ℕ}

variable {t' : TcpTable}

/-- The steps of the machine without the condition on what arrives. -/
abbrev readStep (h : Fin 4) := execStep (fun (_ : Reader) (_ : ReadOp) => True) (Reader.exec h)

variable {P : ReadOp × Option (Except Errno (List UInt8)) → Prop} {polls : List (Option Segment)}

lemma readStep_poll {p : Option Segment} (hP : ∀ seg, p = some seg → P (.arrive seg, none))
    (t : TcpTable) (got : List UInt8) : RunWith (readStep h) P ⟨t, got⟩ ⟨netPoll t p, got⟩ := by
  cases p with
  | none => exact .refl _
  | some seg => exact .single ⟨trivial, rfl⟩ (hP seg rfl)

/-- The loop of `net_tcp_recv` is a run of the machine. -/
lemma recvLoop_run (hP : ∀ seg, some seg ∈ polls → P (.arrive seg, none))
    (hrecv : ∀ reply, P (.recv len, reply)) (hloop : recvLoop h len polls t = (t', reply)) :
    RunWith (readStep h) P ⟨t, got⟩ ⟨t', got ++ reply.toOption.getD []⟩ := by
  -- when the ring answers, the loop ends with this one step
  have hready : ∀ {t : TcpTable} {r : (TcpConn × List Segment) × Except Errno (List UInt8)},
      (t.conns h).recvReady len = some r → (t.set h r.1, r.2) = (t', reply) →
      RunWith (readStep h) P ⟨t, got⟩ ⟨t', got ++ reply.toOption.getD []⟩ := by
    intro t r hr heq
    obtain ⟨rfl, rfl⟩ := Prod.mk.inj heq
    refine .single (l := (.recv len, some r.2)) ⟨trivial, ?_⟩ (hrecv _)
    obtain ⟨r, e | bytes⟩ := r <;> simp [Reader.exec, hr, Except.toOption]
  induction polls generalizing t with
  | nil =>
    rw [recvLoop] at hloop
    split at hloop
    · exact hready ‹_› hloop
    obtain ⟨rfl, rfl⟩ := Prod.mk.inj hloop
    simpa [Except.toOption] using RunWith.refl _
  | cons p ps ih =>
    rw [recvLoop] at hloop
    split at hloop
    · exact hready ‹_› hloop
    exact (readStep_poll (fun seg hseg => hP seg (hseg ▸ mem_cons_self)) t got).trans
      (ih (fun seg hseg => hP seg (mem_cons_of_mem p hseg)) hloop)

variable {handle : ℤ}

/-- A call of `net_tcp_recv` is a run: the segments it polls for arrive, and then it looks at the
ring. -/
theorem netTcpRecv_run (hlive : t.live handle = some h)
    (hrecv : netTcpRecv t handle len polls = (t', reply)) :
    ∃ ls, Run (readStep h) ⟨t, got⟩ ls ⟨t', got ++ reply.toOption.getD []⟩ ∧
      ∀ l ∈ ls, l.1 = .recv len ∨ ∃ seg, some seg ∈ polls ∧ l.1 = .arrive seg := by
  rw [netTcpRecv, hlive] at hrecv
  exact recvLoop_run (fun seg hseg => .inr ⟨seg, hseg, rfl⟩) (fun _ => .inl rfl) hrecv

/-- The steps of a call that sends: attempts, and the arrival of what is polled for. -/
def SendLabel (polls : List (Option Segment))
    (l : ReadOp × Option (Except Errno (List UInt8))) : Prop :=
  (∃ seq flags data next, l.1 = .emit seq flags data next) ∨
    ∃ seg, some seg ∈ polls ∧ l.1 = .arrive seg

lemma waitFor_run (done : TcpTable → Bool) (hP : ∀ seg, some seg ∈ polls → P (.arrive seg, none))
    (t : TcpTable) (got : List UInt8) :
    RunWith (readStep h) P ⟨t, got⟩ ⟨(waitFor done polls t).1, got⟩ := by
  induction polls generalizing t with
  | nil => exact .refl _
  | cons p ps ih =>
    have hpoll : RunWith (readStep h) P ⟨t, got⟩ ⟨netPoll t p, got⟩ :=
      readStep_poll (fun seg hseg => hP seg (hseg ▸ mem_cons_self)) t got
    rw [waitFor]
    split_ifs
    · exact hpoll
    · exact hpoll.trans (ih (fun seg hseg => hP seg (mem_cons_of_mem p hseg)) _)

section Attempts

variable (hemit : ∀ seq flags data next, P (.emit seq flags data next, none))

include hemit

lemma sendAttempts_run (seq : ℕ) (chunk : List UInt8) {windows : List (List (Option Segment))}
    (hP : ∀ w ∈ windows, ∀ seg, some seg ∈ w → P (.arrive seg, none)) (t : TcpTable)
    (got : List UInt8) :
    RunWith (readStep h) P ⟨t, got⟩ ⟨(sendAttempts h seq chunk windows t).1, got⟩ := by
  induction windows generalizing t with
  | nil => exact .refl _
  | cons w ws ih =>
    let next := (seq + chunk.length) % word32
    have hfirst : RunWith (readStep h) P ⟨t, got⟩ ⟨t.emit h seq _ chunk next, got⟩ :=
      .single ⟨trivial, rfl⟩ (hemit seq { psh := true, ack := true } chunk next)
    have hwait := hfirst.trans (waitFor_run (settled h next) (hP w mem_cons_self) _ got)
    rw [sendAttempts]
    split_ifs
    · exact hwait
    · exact hwait.trans (ih (fun w' hw' => hP w' (mem_cons_of_mem w hw')) _)

/-- So is the loop of `net_tcp_send`. -/
lemma sendLoop_run {windows : ℕ → Fin 5 → List (Option Segment)}
    (hP : ∀ k i seg, some seg ∈ windows k i → P (.arrive seg, none)) (n k sent : ℕ)
    (data : List UInt8) (t : TcpTable) (got : List UInt8) :
    RunWith (readStep h) P ⟨t, got⟩ ⟨(sendLoop h windows n k sent data t).1, got⟩ := by
  induction n generalizing k sent data t with
  | zero => exact .refl _
  | succ n ih =>
    have hchunk := sendAttempts_run (h := h) hemit (t.conns h).sndNxt (data.take tcpMss)
      (forall_mem_ofFn_iff.mpr (hP k)) t got
    simp only [sendLoop]
    split_ifs
    · exact .refl _
    · exact hchunk
    · exact hchunk
    · exact hchunk
    · exact hchunk.trans (ih (k + 1) _ _ _)

end Attempts

/-- A call of `net_tcp_send` is a run: it makes attempts, and the segments it polls for arrive. -/
theorem netTcpSend_run (hlive : t.live handle = some h) (data : List UInt8)
    (windows : ℕ → Fin 5 → List (Option Segment)) (got : List UInt8) :
    ∃ ls, Run (readStep h) ⟨t, got⟩ ls ⟨(netTcpSend t handle data windows).1, got⟩ ∧
      ∀ l ∈ ls, ∃ k, SendLabel (ofFn (windows k)).flatten l := by
  simp only [netTcpSend, hlive]
  split_ifs
  · exact RunWith.refl _
  · exact RunWith.refl _
  · refine sendLoop_run (fun _ _ _ _ => ⟨0, .inl ⟨_, _, _, _, rfl⟩⟩) ?_ data.length 0 0 data t got
    intro k i seg hseg
    exact ⟨k, .inr ⟨seg, mem_flatten.mpr ⟨_, mem_ofFn.mpr ⟨i, rfl⟩, hseg⟩, rfl⟩⟩

end Calls

end Wos.Net
