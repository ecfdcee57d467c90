import Wos.Ipc.Streams

/-!
# What a positive `W_POLLOUT` promises

`socket_pollout` of `kernel/fs/socket.c` answers whether a write of `W_SEND_CHUNK` bytes would block.
It looks at the byte buffer of the direction alone, while `socket_send` also waits for room in the
queue of descriptors. The promise is kept for exactly those messages whose descriptors have room when
the poll is made: whatever happens at the other end in between only makes room.

## Main definitions

* `Conn.socketPollout`: the function;
* `Elsewhere`: the steps that do not use an end.

## Main results

* `Roomy.run`: what happens elsewhere leaves the room there is;
* `pollout_promise_iff`: when the promise is kept.
-/

namespace Wos.Ipc

/-- `W_SEND_CHUNK`. -/
def sendChunk : ℕ := 1024

/-- `W_SEND_MAX_FDS`. -/
def sendMaxFds : ℕ := 28

variable {T F : Type} [DecidableEq T] {s : Bool} {c : Conn F} {w w' : World T F} {n : ℕ}

/-- `socket_pollout` of an end of a connection. -/
def Conn.socketPollout (c : Conn F) (s : Bool) : Bool :=
  c.peerGone s || decide ((c.dir s).buf.count + sendChunk ≤ sockCap)

/-- A step that does not use the end `s`. -/
def Elsewhere (s : Bool) (w : World T F) : Call T F → Prop
  | .send _ r _ _ | .recv _ r _ _ | .ref r | .unref r => r ≠ s
  | .resume t => ∀ q, w.waiting t = some q → q.side ≠ s
  | .kill _ => True

/-- Room for a chunk and for `n` descriptors, or nobody to keep it for. -/
def Roomy (s : Bool) (n : ℕ) (c : Conn F) : Prop :=
  c.peerGone s = true ∨
    (c.dir s).buf.count + sendChunk ≤ sockCap ∧ (c.dir s).fds.count + n ≤ sockFdCap

/-! ## Steps elsewhere -/

omit [DecidableEq T] in
lemma World.At.side_ne {call : Call T F} {t : T} {q : Pending F} (h : w.At call t q)
    (helse : Elsewhere s w call) : q.side ≠ s := by
  cases h with
  | sends | receives => exact helse
  | resumes hwaiting => exact helse q hwaiting

/-- Room stays where the direction is at most emptied and no end opens again. -/
lemma Roomy.mono {c' : Conn F} (h : Roomy s n c) (hclosed : c'.closed = c.closed)
    (hbuf : (c'.dir s).buf.count ≤ (c.dir s).buf.count)
    (hfds : (c'.dir s).fds.count ≤ (c.dir s).fds.count) : Roomy s n c' := by
  refine h.imp (fun hgone => ?_) fun hroom => ?_
  · rw [Conn.peerGone, hclosed]
    exact hgone
  · exact ⟨by omega, by omega⟩

/-- A receive takes from the direction. -/
lemma Takes.count_le {c' : Conn F} {want : ℕ} {bytes : List UInt8} {fds : List F}
    (h : Takes s c c' want bytes fds) : (c'.dir s).buf.count ≤ (c.dir s).buf.count ∧
      (c'.dir s).fds.count ≤ (c.dir s).fds.count := by
  obtain ⟨got, hqueue, -⟩ := h.taken
  have hbytes := congrArg List.length h.bytes_eq
  have hfds := congrArg List.length hqueue
  simp only [Dir.bytes, Dir.queue, List.length_append, Ring.length_contents] at hbytes hfds
  omega

/-- What others do leaves the room that was polled for. -/
lemma Turn.roomy {call : Call T F} {e : Effect F} (h : Turn w call w' e)
    (helse : Elsewhere s w call) (hroomy : Roomy s n w.conn) : Roomy s n w'.conn := by
  cases h with
  | idle hdir hclosed => exact hroomy.mono hclosed (by rw [hdir]) (by rw [hdir])
  | killed | recvWaits | sendHalts => exact hroomy
  | sends t r buf queued k c' e hopen hat hpos hwhy hgone hsends =>
    have hside : r ≠ s := by
      rcases hat with ⟨-, hat⟩ | ⟨-, hat⟩ <;> exact hat.side_ne helse
    have hdir : c'.dir s = w.conn.dir s := by
      rw [Bool.eq_not_of_ne hside.symm]
      exact hsends.other
    exact hroomy.mono hsends.closed_eq (by rw [hdir]) (by rw [hdir])
  | takes t r len want c' bytes fds hopen hat htakes =>
    have hside : r ≠ s := hat.side_ne helse
    rw [Bool.not_eq.mpr hside] at htakes
    exact hroomy.mono htakes.closed_eq htakes.count_le.1 htakes.count_le.2
  | closes r =>
    -- the other end is the one that closes
    refine .inl ?_
    change Function.update w.conn.closed r true (!s) = true
    rw [Bool.eq_not_of_ne helse, Function.update_self]

theorem Roomy.run {ls : List (Call T F × Effect F)} (hok : w.Ok)
    (hrun : Run (sockStep (Elsewhere s)) w ls w') (h : Roomy s n w.conn) :
    w'.Ok ∧ Roomy s n w'.conn := by
  refine hrun.invariant (P := fun w => w.Ok ∧ Roomy s n w.conn) (fun w l w' h hstep => ?_) ⟨hok, h⟩
  have hturn := sockStep_turn h.1 hstep
  exact ⟨hturn.ok h.1, hturn.roomy hstep.1.2 h.2⟩

/-! ## The send -/

variable {buf : List UInt8} {fds : List F}

/-- Bytes that fit are written in one round. -/
lemma Conn.sendBytes_fits (hok : (c.dir s).Ok) (hopen : c.peerGone s = false)
    (hroom : (c.dir s).buf.count + buf.length ≤ sockCap) (queued : List F) :
    (c.sendBytes s buf 0 queued).2.2 = none := by
  rw [sendBytes]
  by_cases hnil : buf.length ≤ 0
  · rw [if_pos hnil]
  obtain ⟨-, -, hk, -⟩ := Dir.fill_spec hok buf
  rw [if_neg hnil, sendLoop, if_neg (by simp [hopen]), if_neg (by omega), List.drop_zero]
  dsimp only
  rw [if_pos (by omega)]

/-- With that room a send does not block. -/
lemma Roomy.send_returns (hok : (c.dir s).Ok) (h : Roomy s fds.length c)
    (hbuf : buf.length ≤ sendChunk) : (c.socketSend s buf fds).2.2 = none := by
  rw [Conn.socketSend]
  split_ifs
  · rfl
  rw [Conn.sendFds]
  split
  next hfull =>
    rcases h with hgone | ⟨-, hfds⟩
    · rw [if_pos hgone]
    · omega
  next hfree =>
    have hcap := hok.fds.count_le
    obtain ⟨hqueued, -, hsame, -⟩ := Dir.queueFds_spec hok buf.length fds (by omega)
    have hok' : ((c.setDir s ((c.dir s).queueFds buf.length fds)).dir s).Ok := by
      rwa [Conn.setDir_self]
    cases hgone : c.peerGone s with
    | true =>
      -- the send may write nothing any more, but it does not wait either
      obtain ⟨c', e, heq, -, -, hwhy, -⟩ := Conn.sendBytes_spec s buf hok' 0 fds
      rw [heq]
      cases e with
      | finished | broken => rfl
      | waiting => exact absurd (hgone.symm.trans hwhy.2) (by decide)
    | false =>
      refine Conn.sendBytes_fits hok' hgone ?_ fds
      rcases h with hgone' | ⟨hbytes, -⟩
      · exact absurd (hgone.symm.trans hgone') (by decide)
      · rw [Conn.setDir_self, hsame]
        omega

/-- After a positive poll, a send of at most a chunk never blocks, whatever is done elsewhere in
between, if and only if the queue had room for its descriptors or the peer had gone. -/
theorem pollout_promise_iff [Inhabited F] {ls₀ : List (Call T F × Effect F)}
    (hreach : Run (sockStep fun _ _ => True) (World.fresh T F) ls₀ w)
    (hpoll : w.conn.socketPollout s = true) (hbuf : buf.length ≤ sendChunk)
    (hfds : fds.length ≤ sendMaxFds) :
    (∀ ls w', Run (sockStep (Elsewhere s)) w ls w' → (w'.conn.socketSend s buf fds).2.2 = none) ↔
      w.conn.peerGone s = true ∨ (w.conn.dir s).fds.count + fds.length ≤ sockFdCap := by
  have hok : w.Ok := hreach.invariant (P := World.Ok)
    (fun _ _ _ h hstep => (sockStep_turn h hstep).ok h) World.ok_fresh
  constructor
  · -- nothing need happen in between
    intro hall
    have hsend := hall [] w (.nil w)
    by_contra hnot
    obtain ⟨hopen, hfull⟩ := not_or.mp hnot
    have hcap : ¬ sockFdCap < fds.length := Nat.not_lt.mpr hfds
    have hle := (hok.dir s).fds.count_le
    rw [Conn.socketSend, if_neg hcap, Conn.sendFds, if_pos (by omega), if_neg hopen] at hsend
    cases hsend
  · intro hroom ls w' hrun
    have hroomy : Roomy s fds.length w.conn := by
      rcases hroom with hgone | hroom
      · exact .inl hgone
      · rw [Conn.socketPollout, Bool.or_eq_true, decide_eq_true_iff] at hpoll
        exact hpoll.imp id fun hbytes => ⟨hbytes, hroom⟩
    obtain ⟨hok', hroomy'⟩ := Roomy.run hok hrun hroomy
    exact hroomy'.send_returns (hok'.dir s) hbuf

/-- A message with a descriptor on a new connection. -/
theorem pollout_promise_fresh : (World.fresh Unit ℕ).conn.socketPollout true = true ∧
    ∀ ls w', Run (sockStep (Elsewhere true)) (World.fresh Unit ℕ) ls w' →
      (w'.conn.socketSend true [7] [0]).2.2 = none :=
  ⟨by decide, (pollout_promise_iff (.nil _) (by decide) (by decide) (by decide)).mpr
    (.inr (by decide))⟩

/-- A message of 28 descriptors and no bytes fills the queue and leaves the buffer empty. The end is
said to be writable, and the next descriptor waits. -/
theorem pollout_full_queue :
    ((World.fresh Unit ℕ).exec (.send () true [] (List.replicate 28 0))).1.conn.socketPollout true =
      true ∧
    (((World.fresh Unit ℕ).exec (.send () true [] (List.replicate 28 0))).1.conn.socketSend true []
      [0]).2.2.isSome = true := by
  decide

end Wos.Ipc
