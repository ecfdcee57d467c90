import Wos.Ipc.Objects

/-!
# No lost wake-ups

A thread that waits on a pipe or a socket is woken by reason, not by object, and wakes only if
somebody calls `sched_wake`. Whenever a step makes false what some thread waits for, it has to wake
that reason before it ends.

It does. In every reachable state a blocked thread still has its reason to wait: a pipe that is
empty with a writer left, or full with a reader left; a listener without a backlog; a connection
whose peer is open with nothing to read, with no room for bytes, or with no room for descriptors.
One case needs more than the step itself: `socket_send` may queue descriptors and then fail without
waking anybody, as its peer has gone; a receiver that this concerns would wait on the closed end,
and closing it woke everybody.

And a pipe is a queue: what was read from it is a prefix of what was put into it.

## Main definitions

* `Kernel.Waits`: the condition of a thread that waits;
* `Undisturbed`: what a part of a step leaves of the threads that wait for one of the two reasons;
* `Kernel.Sound`: the invariant.

## Main results

* `release_released`: giving up references, however deep it goes;
* `run_waits`: every reachable state is sound.
-/

namespace Wos.Ipc

open Function Conn Kernel Option List

/-! ## What a thread waits for -/

/-- The condition of a thread blocked in `socket_send` or `socket_recv`. -/
def Conn.Waits {F : Type} (c : Conn F) : Pending F → Prop
  | .sendFds s _ fds => sockFdCap - (c.dir s).fds.count < fds.length ∧ c.peerGone s = false
  | .sendRoom s _ _ => (c.dir s).buf.count = sockCap ∧ c.peerGone s = false
  | .recv s _ _ =>
    (c.dir (!s)).buf.count = 0 ∧ (c.dir (!s)).fds.count = 0 ∧ c.peerGone s = false

variable {T : Type}

namespace Kernel

/-- The condition of a blocked thread. -/
def Waits (k : Kernel T) : Wait → Prop
  | .pipeRead p _ => (k.pipes p).ring.count = 0 ∧ 0 < (k.pipes p).writers
  | .pipeWrite p _ _ => (k.pipes p).ring.count = pipeCap ∧ 0 < (k.pipes p).readers
  | .accept l => (k.listeners l).backlog = []
  | .talk c q => (k.conns c).Waits q

/-- What it waits on has been made, and the end of a connection is open. -/
def Exists (k : Kernel T) : Wait → Prop
  | .pipeRead p _ => p < k.pipeCount
  | .pipeWrite p _ _ => p < k.pipeCount
  | .accept l => l < k.listenerCount
  | .talk c q => (k.conns c).closed q.side = false

end Kernel

/-- A thread waits rightly. -/
structure Kernel.Rightly (k : Kernel T) (q : Wait) : Prop where
  waits : k.Waits q
  there : k.Exists q

/-- Whoever still waits for a reason waited before, and still does so rightly. -/
def Undisturbed (onPipe : Bool) (k k' : Kernel T) : Prop :=
  ∀ t q, k'.threads t = .blocked q → q.onPipe = onPipe →
    k.threads t = .blocked q ∧ (k.Rightly q → k'.Rightly q)

/-- What the ring of a pipe holds is what was put and not yet taken. -/
structure Pipe.Ok (p : Pipe) : Prop where
  ring : p.ring.Ok pipeCap
  put_eq : p.put = p.got ++ p.ring.contents pipeCap

/-- Every blocked thread waits rightly, and every buffer is in order. -/
structure Kernel.Sound (k : Kernel T) : Prop where
  /-- Who is blocked has a reason. -/
  rightly : ∀ t q, k.threads t = .blocked q → k.Rightly q
  /-- Every ring of a pipe is in order. -/
  pipe : ∀ p, (k.pipes p).Ok
  /-- No buffer of a connection is overfull. -/
  dir : ∀ c s, ((k.conns c).dir s).buf.count ≤ sockCap

/-! ## Parts of a step -/

namespace Undisturbed

variable {onPipe : Bool} {k k' k'' : Kernel T}

lemma refl (k : Kernel T) : Undisturbed onPipe k k := fun _ _ hq _ => ⟨hq, id⟩

lemma trans (h : Undisturbed onPipe k k')
    (h' : Undisturbed onPipe k' k'') : Undisturbed onPipe k k'' := by
  intro t q hq hon
  obtain ⟨hq', hright'⟩ := h' t q hq hon
  obtain ⟨hq, hright⟩ := h t q hq' hon
  exact ⟨hq, fun hr => hright' (hright hr)⟩

/-- Nobody was woken or put to sleep, and the conditions stayed. -/
lemma of_threads_eq (hthreads : k'.threads = k.threads)
    (hright : ∀ q, q.onPipe = onPipe → k.Rightly q → k'.Rightly q) : Undisturbed onPipe k k' := by
  intro t q hq hon
  rw [hthreads] at hq
  exact ⟨hq, hright q hon⟩

/-- Nobody was woken or put to sleep, and what there was stayed as it was, as far as somebody may wait
on it. -/
lemma of_there (hthreads : k'.threads = k.threads)
    (hpipes : ∀ p < k.pipeCount, k'.pipes p = k.pipes p) (hpipeCount : k.pipeCount ≤ k'.pipeCount)
    (haccept : ∀ l < k.listenerCount, k.Waits (.accept l) → k'.Waits (.accept l))
    (hlistenerCount : k.listenerCount ≤ k'.listenerCount)
    (htalk : ∀ c q, k.Rightly (.talk c q) → k'.Rightly (.talk c q)) : Undisturbed onPipe k k' := by
  refine of_threads_eq hthreads fun q _ hq => ?_
  obtain ⟨hwaits, hthere⟩ := hq
  cases q with
  | pipeRead p len | pipeWrite p buf n =>
    refine ⟨?_, lt_of_lt_of_le hthere hpipeCount⟩
    rw [Kernel.Waits, hpipes p hthere]
    exact hwaits
  | accept l => exact ⟨haccept l hthere hwaits, lt_of_lt_of_le hthere hlistenerCount⟩
  | talk c q => exact htalk c q ⟨hwaits, hthere⟩

end Undisturbed

variable {k : Kernel T} {q : Wait}

/-- Whoever is still blocked after `sched_wake` was so before, for the other reason. -/
lemma Kernel.wake_blocked {woken : Bool} {t : T}
    (h : (k.wake woken).threads t = .blocked q) : k.threads t = .blocked q ∧ q.onPipe ≠ woken := by
  simp only [Kernel.wake] at h
  cases hstatus : k.threads t with
  | outside | ready q' =>
    rw [hstatus] at h
    cases h
  | blocked q' =>
    rw [hstatus] at h
    dsimp only at h
    split_ifs at h with hne
    cases h
    exact ⟨rfl, hne⟩

lemma Undisturbed.wake {onPipe : Bool} (k : Kernel T) (woken : Bool) :
    Undisturbed onPipe k (k.wake woken) :=
  fun _ _ hq _ => ⟨(wake_blocked hq).1, fun h => ⟨h.1, h.2⟩⟩

/-- Waking changes no condition. -/
lemma Kernel.Rightly.wakeIf (h : k.Rightly q) (cond onPipe : Bool) :
    (k.wakeIf cond onPipe).Rightly q := by
  cases cond
  · exact h
  · exact ⟨h.1, h.2⟩

/-- After `sched_wake` nobody waits for that reason, whatever happened before. -/
lemma Undisturbed.woken (k k' : Kernel T) (onPipe : Bool) :
    Undisturbed onPipe k (k'.wake onPipe) :=
  fun _ _ hq hon => absurd hon (wake_blocked hq).2

/-- Counts of references change, of readers and writers only upwards. -/
structure Milder (k k' : Kernel T) : Prop where
  threads : k'.threads = k.threads
  /-- Nothing is read or written. -/
  ring : ∀ p, (k'.pipes p).ring = (k.pipes p).ring ∧ (k'.pipes p).put = (k.pipes p).put ∧
    (k'.pipes p).got = (k.pipes p).got
  /-- No end of a pipe is given up. -/
  ends : ∀ p, (k.pipes p).readers ≤ (k'.pipes p).readers ∧ (k.pipes p).writers ≤ (k'.pipes p).writers
  /-- Connections stay as they are. -/
  dir : ∀ c, (k'.conns c).dir = (k.conns c).dir ∧ (k'.conns c).closed = (k.conns c).closed
  /-- Nobody connects or is accepted. -/
  backlog : ∀ l, (k'.listeners l).backlog = (k.listeners l).backlog
  counts : k'.pipeCount = k.pipeCount ∧ k'.listenerCount = k.listenerCount

lemma Milder.refl (k : Kernel T) : Milder k k :=
  ⟨rfl, fun _ => ⟨rfl, rfl, rfl⟩, fun _ => ⟨le_rfl, le_rfl⟩, fun _ => ⟨rfl, rfl⟩, fun _ => rfl, rfl, rfl⟩

variable {k' : Kernel T}

lemma Milder.trans {k'' : Kernel T} (h : Milder k k') (h' : Milder k' k'') : Milder k k'' where
  threads := h'.threads.trans h.threads
  ring p := ⟨(h'.ring p).1.trans (h.ring p).1, (h'.ring p).2.1.trans (h.ring p).2.1,
    (h'.ring p).2.2.trans (h.ring p).2.2⟩
  ends p := ⟨(h.ends p).1.trans (h'.ends p).1, (h.ends p).2.trans (h'.ends p).2⟩
  dir c := ⟨(h'.dir c).1.trans (h.dir c).1, (h'.dir c).2.trans (h.dir c).2⟩
  backlog l := (h'.backlog l).trans (h.backlog l)
  counts := ⟨h'.counts.1.trans h.counts.1, h'.counts.2.trans h.counts.2⟩

lemma Conn.waits_congr {F : Type} {c c' : Conn F} (hdir : c'.dir = c.dir)
    (hclosed : c'.closed = c.closed) (q : Pending F) : c'.Waits q ↔ c.Waits q := by
  cases q <;> simp only [Conn.Waits, Conn.peerGone, hdir, hclosed]

/-- Nobody loses the reason to wait. -/
lemma Milder.rightly (h : Milder k k') (hq : k.Rightly q) : k'.Rightly q := by
  obtain ⟨hwaits, hthere⟩ := hq
  cases q with
  | pipeRead p len =>
    refine ⟨⟨?_, lt_of_lt_of_le hwaits.2 (h.ends p).2⟩, ?_⟩
    · rw [(h.ring p).1]
      exact hwaits.1
    · exact lt_of_lt_of_eq hthere h.counts.1.symm
  | pipeWrite p buf n =>
    refine ⟨⟨?_, lt_of_lt_of_le hwaits.2 (h.ends p).1⟩, ?_⟩
    · rw [(h.ring p).1]
      exact hwaits.1
    · exact lt_of_lt_of_eq hthere h.counts.1.symm
  | accept l => exact ⟨(h.backlog l).trans hwaits, lt_of_lt_of_eq hthere h.counts.2.symm⟩
  | talk c q =>
    refine ⟨(waits_congr (h.dir c).1 (h.dir c).2 q).mpr hwaits, ?_⟩
    rw [Kernel.Exists, (h.dir c).2]
    exact hthere

lemma Milder.undisturbed (h : Milder k k') (onPipe : Bool) : Undisturbed onPipe k k' :=
  .of_threads_eq h.threads fun _ _ hq => h.rightly hq

/-- A connection whose counts of references changed. -/
lemma Milder.setConn (k : Kernel T) (c : ℕ) (refs : Bool → ℕ) :
    Milder k (k.setConn c { k.conns c with refs := refs }) := by
  refine { Milder.refl k with dir := (forall_update_iff k.conns fun c' x =>
    x.dir = (k.conns c').dir ∧ x.closed = (k.conns c').closed).mpr ⟨⟨rfl, rfl⟩, ?_⟩ }
  exact fun _ _ => ⟨rfl, rfl⟩

/-- A listener whose count of references changed. -/
lemma Milder.setListener (k : Kernel T) (l refs : ℕ) :
    Milder k (k.setListener l { k.listeners l with refs := refs }) := by
  exact { Milder.refl k with backlog := (forall_update_iff k.listeners fun l' x =>
    x.backlog = (k.listeners l').backlog).mpr ⟨rfl, fun _ _ => rfl⟩ }

lemma Milder.retain (k : Kernel T) (d : Desc) : Milder k (k.retain d) := by
  cases d with
  | plain => exact .refl k
  | pipe p writeEnd =>
    refine { Milder.refl k with
      ring := (forall_update_iff k.pipes fun p' x => x.ring = (k.pipes p').ring ∧
        x.put = (k.pipes p').put ∧ x.got = (k.pipes p').got).mpr ⟨?_, fun _ _ => ⟨rfl, rfl, rfl⟩⟩
      ends := (forall_update_iff k.pipes fun p' x => (k.pipes p').readers ≤ x.readers ∧
        (k.pipes p').writers ≤ x.writers).mpr ⟨?_, fun _ _ => ⟨le_rfl, le_rfl⟩⟩ }
    · cases writeEnd <;> exact ⟨rfl, rfl, rfl⟩
    · cases writeEnd <;> simp [Pipe.ref]
  | endpoint c s => exact .setConn k c _
  | listener l => exact .setListener k l _
  | shm m | input => exact { Milder.refl k with }

/-! ## Giving up references -/

/-- The pipes and whoever waits are as they were. -/
lemma Undisturbed.of_pipes_eq (hthreads : k'.threads = k.threads) (hpipes : k'.pipes = k.pipes)
    (hcount : k'.pipeCount = k.pipeCount) : Undisturbed true k k' := by
  refine .of_threads_eq hthreads fun q hon hq => ?_
  obtain ⟨hwaits, hthere⟩ := hq
  cases q with
  | pipeRead p len | pipeWrite p buf n =>
    rw [Kernel.Waits, ← hpipes] at hwaits
    exact ⟨hwaits, lt_of_lt_of_eq hthere hcount.symm⟩
  | accept l => cases hon
  | talk c q => cases hon

/-- The sockets and whoever waits are as they were. -/
lemma Undisturbed.of_sockets_eq (hthreads : k'.threads = k.threads) (hconns : k'.conns = k.conns)
    (hlisteners : k'.listeners = k.listeners)
    (hcount : k'.listenerCount = k.listenerCount) : Undisturbed false k k' := by
  refine .of_threads_eq hthreads fun q hon hq => ?_
  obtain ⟨hwaits, hthere⟩ := hq
  cases q with
  | pipeRead p len => cases hon
  | pipeWrite p buf n => cases hon
  | accept l =>
    rw [Kernel.Waits, ← hlisteners] at hwaits
    exact ⟨hwaits, lt_of_lt_of_eq hthere hcount.symm⟩
  | talk c q =>
    rw [Kernel.Waits, ← hconns] at hwaits
    rw [Kernel.Exists, ← hconns] at hthere
    exact ⟨hwaits, hthere⟩

/-- What giving up references leaves alone: the bytes in the buffers, and whoever waits on a pipe. -/
structure Released (k k' : Kernel T) : Prop where
  pipe : Undisturbed true k k'
  ring : ∀ p, (k'.pipes p).ring = (k.pipes p).ring ∧ (k'.pipes p).put = (k.pipes p).put ∧
    (k'.pipes p).got = (k.pipes p).got
  buf : ∀ c s, ((k'.conns c).dir s).buf = ((k.conns c).dir s).buf

namespace Released

variable {k k' k'' : Kernel T}

lemma trans (h : Released k k') (h' : Released k' k'') : Released k k'' where
  pipe := h.pipe.trans h'.pipe
  ring p := ⟨(h'.ring p).1.trans (h.ring p).1, (h'.ring p).2.1.trans (h.ring p).2.1,
    (h'.ring p).2.2.trans (h.ring p).2.2⟩
  buf c s := (h'.buf c s).trans (h.buf c s)

lemma of_milder (h : Milder k k') : Released k k' :=
  ⟨h.undisturbed true, h.ring, fun c s => by rw [(h.dir c).1]⟩

lemma wake (k : Kernel T) (woken : Bool) : Released k (k.wake woken) :=
  ⟨.wake k woken, fun _ => ⟨rfl, rfl, rfl⟩, fun _ _ => rfl⟩

lemma closeEnd (k : Kernel T) (c : ℕ) (s : Bool) : Released k (k.closeEnd c s) := by
  exact ⟨.of_pipes_eq rfl rfl rfl, fun _ => ⟨rfl, rfl, rfl⟩, (forall_update_iff k.conns
    fun c' x => ∀ s', (x.dir s').buf = ((k.conns c').dir s').buf).mpr ⟨fun _ => rfl, fun _ _ _ => rfl⟩⟩

lemma popFd (k : Kernel T) (c : ℕ) (s : Bool) : Released k (k.popFd c s) := by
  refine ⟨.of_pipes_eq rfl rfl rfl, fun _ => ⟨rfl, rfl, rfl⟩, (forall_update_iff k.conns
    fun c' x => ∀ s', (x.dir s').buf = ((k.conns c').dir s').buf).mpr ⟨?_, fun _ _ _ => rfl⟩⟩
  exact (forall_update_iff (k.conns c).dir fun s' d =>
    d.buf = ((k.conns c).dir s').buf).mpr ⟨rfl, fun _ _ => rfl⟩

lemma pipeUnref (k : Kernel T) (p : ℕ) (writeEnd : Bool) : Released k (k.pipeUnref p writeEnd) := by
  refine ⟨.woken k _ true, (forall_update_iff k.pipes fun p' x =>
    x.ring = (k.pipes p').ring ∧ x.put = (k.pipes p').put ∧ x.got = (k.pipes p').got).mpr
      ⟨?_, fun _ _ => ⟨rfl, rfl, rfl⟩⟩, fun _ _ => rfl⟩
  cases writeEnd <;> exact ⟨rfl, rfl, rfl⟩

lemma pipe_ok (h : Released k k') {p : ℕ} (hp : (k.pipes p).Ok) : (k'.pipes p).Ok := by
  obtain ⟨hring, hput, hgot⟩ := h.ring p
  refine ⟨hring ▸ hp.ring, ?_⟩
  rw [hput, hgot, hring]
  exact hp.put_eq

end Released

/-- Giving something up, however deep it goes: whoever waits on a pipe is not disturbed, and if it
is a whole descriptor, neither is whoever waits on a socket. -/
theorem release_released (fuel : ℕ) {task : Kernel.Task}
    (h : Kernel.release fuel k task = some k') :
    Released k k' ∧ ∀ d, task = .desc d → Undisturbed false k k' := by
  induction fuel generalizing k k' task with
  | zero => cases h
  | succ fuel ih =>
    cases task with
    | queue c s =>
      refine ⟨?_, fun d hd => by cases hd⟩
      rw [Kernel.release] at h
      split_ifs at h
      · obtain rfl := some.inj h
        exact .of_milder (.refl k)
      · obtain ⟨k1, h1, h2⟩ := bind_eq_some_iff.mp h
        exact (ih h1).1.trans ((Released.popFd k1 c s).trans (ih h2).1)
    | desc d =>
      cases d with
      | plain =>
        obtain rfl := some.inj h
        exact ⟨.of_milder (.refl k), fun _ _ => .refl k⟩
      | pipe p writeEnd =>
        obtain rfl := some.inj h
        refine ⟨.pipeUnref k p writeEnd, fun _ _ => ?_⟩
        have hset : Undisturbed false k (k.setPipe p ((k.pipes p).unref writeEnd)) :=
          .of_sockets_eq rfl rfl rfl rfl
        exact hset.trans (.wake _ true)
      | shm m | input =>
        obtain rfl := some.inj h
        exact ⟨⟨.of_pipes_eq rfl rfl rfl, fun _ => ⟨rfl, rfl, rfl⟩, fun _ _ => rfl⟩,
          fun _ _ => .of_sockets_eq rfl rfl rfl rfl⟩
      | endpoint c s =>
        rw [Kernel.release] at h
        split_ifs at h
        · obtain rfl := some.inj h
          have hmilder := Milder.setConn k c
            (update (k.conns c).refs s ((k.conns c).refs s - 1))
          exact ⟨.of_milder hmilder, fun _ _ => hmilder.undisturbed false⟩
        · -- the end is closed, both queues are given up, and then everybody is woken
          obtain ⟨k1, h1, h2⟩ := bind_eq_some_iff.mp h
          obtain ⟨k2, h3, rfl⟩ := map_eq_some_iff.mp h2
          refine ⟨?_, fun _ _ => .woken k k2 false⟩
          exact (Released.closeEnd k c s).trans
            ((ih h1).1.trans ((ih h3).1.trans (.wake k2 false)))
      | listener l =>
        rw [Kernel.release] at h
        split_ifs at h
        · obtain rfl := some.inj h
          have hmilder := Milder.setListener k l ((k.listeners l).refs - 1)
          exact ⟨.of_milder hmilder, fun _ _ => hmilder.undisturbed false⟩
        obtain ⟨k1, h1, rfl⟩ := map_eq_some_iff.mp h
        refine ⟨?_, fun _ _ => .woken k k1 false⟩
        have hforget : Released k (k.forget l) :=
          ⟨.of_pipes_eq rfl rfl rfl, fun _ => ⟨rfl, rfl, rfl⟩, fun _ _ => rfl⟩
        have hall : Released k k1 := foldlM_keeps (P := Released k)
          (fun c _ k0 k0' hbefore hstep => hbefore.trans (ih hstep).1) hforget h1
        exact hall.trans (.wake k1 false)

/-! ## One connection -/

section Connection

variable {F : Type}

lemma Dir.queueFds_count (len : ℕ) (fds : List F) (d : Dir F) :
    (d.queueFds len fds).fds.count = d.fds.count + fds.length ∧
      (d.queueFds len fds).buf = d.buf := by
  induction fds generalizing d with
  | nil => exact ⟨rfl, rfl⟩
  | cons f fds ih =>
    obtain ⟨hcount, hbuf⟩ := ih { d with fds := d.fds.push sockFdCap (f, (d.written + len) % word64) }
    refine ⟨?_, hbuf⟩
    rw [length_cons]
    change ((Dir.queueFds _ len fds).fds.count) = _
    rw [hcount]
    change d.fds.count + 1 + fds.length = _
    omega

lemma Dir.drain_count (len : ℕ) (d : Dir F) : (d.drain len).2.buf.count ≤ d.buf.count := by
  induction len generalizing d with
  | zero => exact le_rfl
  | succ len ih =>
    rw [Dir.drain]
    split_ifs with hsome
    · refine (ih d.get).trans ?_
      change d.buf.count - 1 ≤ d.buf.count
      omega
    · exact le_rfl

lemma Dir.handOver_buf (want : ℕ) (d : Dir F) : (d.handOver want).2.buf = d.buf := by
  induction want generalizing d with
  | zero => rfl
  | succ want ih =>
    rw [Dir.handOver]
    split_ifs
    · exact ih _
    · rfl

/-- What a call on a connection comes to, for whoever waits. -/
structure Conn.Fair (s : Bool) (c : Conn F) (r : Conn F × Effect F × Option (Pending F)) : Prop where
  closed : r.1.closed = c.closed
  count : ∀ s', (r.1.dir s').buf.count ≤ sockCap
  /-- If the thread blocks, it does so rightly. -/
  blocks : ∀ q, r.2.2 = some q → r.1.Waits q ∧ q.side = s
  /-- If nobody is woken, whoever waited on an open end still does so rightly. -/
  keeps : r.2.1.wakes = false → ∀ q, c.closed q.side = false → c.Waits q → r.1.Waits q

variable {s : Bool} {c₀ c : Conn F}

/-- Descriptors were queued in direction `s`, and nobody was woken: whoever waited still does, if
the peer has gone or there is no room for bytes. -/
lemma Conn.waits_queued (hclosed : c.closed = c₀.closed)
    (hother : c.dir (!s) = c₀.dir (!s)) (hbuf : (c.dir s).buf = (c₀.dir s).buf)
    (hfds : (c₀.dir s).fds.count ≤ (c.dir s).fds.count)
    (hwhy : c.peerGone s = true ∨ (c.dir s).buf.count = sockCap) {q : Pending F}
    (hopen : c₀.closed q.side = false) (hq : c₀.Waits q) : c.Waits q := by
  have hpeer : ∀ s', c.peerGone s' = c₀.peerGone s' := fun s' => congrFun hclosed (!s')
  cases q with
  | sendFds s' buf fds =>
    rcases Bool.eq_or_eq_not s' s with rfl | rfl
    · exact ⟨by have := hq.1; omega, (hpeer _).trans hq.2⟩
    · rw [Conn.Waits, hother, hpeer]
      exact hq
  | sendRoom s' buf n =>
    rcases Bool.eq_or_eq_not s' s with rfl | rfl
    · rw [Conn.Waits, hbuf, hpeer]
      exact hq
    · rw [Conn.Waits, hother, hpeer]
      exact hq
  | recv s' len want =>
    rcases Bool.eq_or_eq_not s' s with rfl | rfl
    · rw [Conn.Waits, hother, hpeer]
      exact hq
    -- a receiver at the other end: it is open, and it found no bytes
    obtain ⟨hempty, -, -⟩ := hq
    rw [Bool.not_not, ← hbuf] at hempty
    rcases hwhy with hgone | hfull
    · rw [hpeer] at hgone
      exact absurd (hgone.symm.trans hopen) (by decide)
    · exact absurd (hempty.symm.trans hfull) (by decide)

variable (hcount : ∀ s', (c.dir s').buf.count ≤ sockCap)

include hcount

lemma Conn.setDir_count {d : Dir F} (hd : d.buf.count ≤ sockCap) :
    ∀ s', ((c.setDir s d).dir s').buf.count ≤ sockCap :=
  (forall_update_iff c.dir fun _ (d : Dir F) => d.buf.count ≤ sockCap).mpr
    ⟨hd, fun s' _ => hcount s'⟩

/-- `socket_send` from the point on where its descriptors, if any, are queued; `c₀` is the
connection before that. -/
lemma Conn.sendBytes_fair (buf : List UInt8) (n : ℕ) (queued : List F)
    (hclosed : c.closed = c₀.closed) (hother : c.dir (!s) = c₀.dir (!s))
    (hbuf : (c.dir s).buf = (c₀.dir s).buf) (hfds : (c₀.dir s).fds.count ≤ (c.dir s).fds.count)
    (hsame : queued = [] → c = c₀) (hstart : queued ≠ [] → n = 0) :
    Conn.Fair s c₀ (c.sendBytes s buf n queued) := by
  unfold sendBytes
  by_cases hall : buf.length ≤ n
  · rw [if_pos hall]
    refine ⟨hclosed, hcount, fun q hq => (by cases hq), fun hwakes q _ hq => ?_⟩
    -- a message without bytes wakes the receiver if it has descriptors
    have hnone : queued = [] := by
      by_contra hsome
      obtain rfl : buf = [] := eq_nil_of_length_eq_zero (by have := hstart hsome; omega)
      simp [Effect.wakes, hsome] at hwakes
    rwa [← hsame hnone] at hq
  rw [if_neg hall, sendLoop_eq s buf _ (hcount s) (Nat.lt_of_not_le hall) (by omega)]
  by_cases hgone : c.peerGone s = true
  · rw [if_pos hgone]
    refine ⟨hclosed, hcount, fun q hq => (by cases hq), fun _ q hopen hq => ?_⟩
    exact waits_queued hclosed hother hbuf hfds (.inl hgone) hopen hq
  rw [if_neg hgone]
  obtain ⟨hfill, hk, hnone⟩ := Dir.fill_count (buf.drop n) (hcount s)
  rw [length_drop] at hk
  have hroom := hcount s
  dsimp only
  generalize ((c.dir s).fill (buf.drop n)).1 = d at *
  generalize ((c.dir s).fill (buf.drop n)).2 = k at *
  have hcounts : ∀ s', ((c.setDir s d).dir s').buf.count ≤ sockCap :=
    setDir_count hcount (by omega)
  -- nobody is woken only if no byte was put
  have hkeeps : ∀ result,
      (Effect.sent s queued buf ((buf.drop n).take (n + k - n)) result).wakes = false →
      ∀ q, c₀.closed q.side = false → c₀.Waits q → (c.setDir s d).Waits q := by
    intro result hwakes q hopen hq
    have hput : (k = 0 ∨ buf.length ≤ n) ∧ (buf = [] → queued = []) := by
      simpa [Effect.wakes] using hwakes
    have hzero : k = 0 := hput.1.resolve_right hall
    rw [hnone hzero, Conn.setDir, update_eq_self]
    exact waits_queued hclosed hother hbuf hfds (.inr (by omega)) hopen hq
  by_cases hend : buf.length ≤ n + k
  · rw [if_pos hend]
    exact ⟨hclosed, hcounts, fun q hq => (by cases hq), hkeeps _⟩
  rw [if_neg hend]
  refine ⟨hclosed, hcounts, fun q hq => ?_, hkeeps _⟩
  obtain rfl := some.inj hq
  refine ⟨⟨?_, Bool.eq_false_of_not_eq_true hgone⟩, rfl⟩
  rw [setDir_self]
  omega

/-- Nothing happened. -/
lemma Conn.fair_self {eff : Effect F} {pending : Option (Pending F)}
    (hblocks : ∀ q, pending = some q → c.Waits q ∧ q.side = s) : Conn.Fair s c (c, eff, pending) :=
  ⟨rfl, hcount, hblocks, fun _ _ _ hq => hq⟩

/-- A send blocks only where it has to, and says when it made progress. -/
lemma Conn.sendFds_fair (buf : List UInt8) (fds : List F) :
    Conn.Fair s c (c.sendFds s buf fds) := by
  unfold sendFds
  split_ifs with hroom hgone
  · exact fair_self hcount fun q hq => by cases hq
  · refine fair_self hcount fun q hq => ?_
    obtain rfl := some.inj hq
    exact ⟨⟨hroom, Bool.eq_false_of_not_eq_true hgone⟩, rfl⟩
  obtain ⟨hfds, hbuf⟩ := Dir.queueFds_count buf.length fds (c.dir s)
  refine sendBytes_fair (setDir_count hcount ?_) buf 0 fds rfl setDir_other ?_ ?_
    (fun hnone => ?_) (fun _ => rfl)
  · rw [hbuf]
    exact hcount s
  · rw [setDir_self, hbuf]
  · rw [setDir_self, hfds]
    exact Nat.le_add_right ..
  · subst hnone
    change c.setDir s (c.dir s) = c
    rw [Conn.setDir, update_eq_self]

lemma Conn.socketSend_fair (buf : List UInt8) (fds : List F) :
    Conn.Fair s c (c.socketSend s buf fds) := by
  unfold socketSend
  split_ifs
  · exact fair_self hcount fun q hq => by cases hq
  · exact sendFds_fair hcount buf fds

lemma Conn.socketRecv_fair (len want : ℕ) :
    Conn.Fair s c (c.socketRecv s len want) := by
  unfold socketRecv
  dsimp only
  split_ifs with hempty
  · refine fair_self hcount fun q hq => ?_
    obtain rfl := some.inj hq
    exact ⟨hempty, rfl⟩
  -- it returns, and wakes everybody
  refine ⟨rfl, setDir_count hcount ?_, fun q hq => (by cases hq), fun hwakes => (by cases hwakes)⟩
  rw [Dir.handOver_buf]
  exact (Dir.drain_count len _).trans (hcount _)

end Connection

/-! ## One pipe -/

namespace Pipe

variable {p : Pipe}

/-- The same ends hold the pipe. -/
def SameEnds (p p' : Pipe) : Prop := p'.readers = p.readers ∧ p'.writers = p.writers

lemma drain_ok (len : ℕ) (h : p.Ok) : (drain len p).Ok := by
  induction len generalizing p with
  | zero => exact h
  | succ len ih =>
    rw [drain]
    split_ifs with hsome
    · refine ih ⟨h.ring.pop hsome, ?_⟩
      rw [h.put_eq, h.ring.contents_pop hsome, append_assoc]
      rfl
    · exact h

/-- A write puts in as many bytes as fit. -/
lemma fill_ok (bs : List UInt8) (h : p.Ok) :
    (p.fill bs).1.Ok ∧ SameEnds p (p.fill bs).1 ∧
      (p.fill bs).1.ring.count = p.ring.count + (p.fill bs).2 ∧
      (p.fill bs).2 = min bs.length (pipeCap - p.ring.count) := by
  induction bs generalizing p with
  | nil => exact ⟨h, ⟨rfl, rfl⟩, rfl, (Nat.zero_min _).symm⟩
  | cons b bs ih =>
    rw [fill]
    split_ifs with hroom
    · have hpush : Pipe.Ok { p with ring := p.ring.push pipeCap b, put := p.put ++ [b] } := by
        refine ⟨h.ring.push hroom b, ?_⟩
        rw [h.ring.contents_push hroom, ← append_assoc, ← h.put_eq]
      have hcount : (p.ring.push pipeCap b).count = p.ring.count + 1 := rfl
      obtain ⟨hok, hends, hring, hn⟩ := ih hpush
      dsimp only at hring hn ⊢
      refine ⟨hok, hends, ?_, ?_⟩
      · omega
      · rw [length_cons]
        omega
    · refine ⟨h, ⟨rfl, rfl⟩, rfl, ?_⟩
      omega

/-- `pipe_write` waits only for room, and changes nothing if it puts no byte. -/
lemma writeLoop_ok (buf : List UInt8) (fuel : ℕ) {n : ℕ} (h : p.Ok) (hpos : 0 < fuel)
    (hfuel : buf.length < n + fuel) :
    let r := writeLoop buf fuel p n
    r.1.Ok ∧ n ≤ r.2.pos ∧ (r.2.pos = n → r.1 = p) ∧
      ∀ m, r.2 = .waiting m → r.1.ring.count = pipeCap ∧ 0 < r.1.readers := by
  induction fuel generalizing p n with
  | zero => cases hpos
  | succ fuel ih =>
    rw [writeLoop]
    by_cases hall : buf.length ≤ n
    · rw [if_pos hall]
      exact ⟨h, le_rfl, fun _ => rfl, fun m hm => (by cases hm)⟩
    rw [if_neg hall]
    by_cases hgone : p.readers ≤ 0
    · rw [if_pos hgone]
      exact ⟨h, le_rfl, fun _ => rfl, fun m hm => (by cases hm)⟩
    rw [if_neg hgone]
    by_cases hfull : p.ring.count = pipeCap
    · rw [if_pos hfull]
      exact ⟨h, le_rfl, fun _ => rfl, fun _ _ => ⟨hfull, not_le.mp hgone⟩⟩
    rw [if_neg hfull]
    -- at least one byte is put, and the next round goes on from there
    obtain ⟨hok, -, -, hk⟩ := fill_ok (buf.drop n) h
    have hle := h.ring.count_le
    rw [length_drop] at hk
    obtain ⟨hok', hle', -, hwaits⟩ :=
      ih hok (n := n + (p.fill (buf.drop n)).2) (by omega) (by omega)
    dsimp only
    refine ⟨hok', by omega, fun heq => ?_, hwaits⟩
    omega

lemma read_ok (len : ℕ) (h : p.Ok) :
    (p.read len = none → p.ring.count = 0 ∧ 0 < p.writers) ∧
      ∀ x wakes, p.read len = some (x, wakes) → x.Ok ∧ (wakes = false → x = p) := by
  unfold read
  split_ifs with hlen hwait hempty
  · refine ⟨fun hno => (by cases hno), fun x wakes hr => ?_⟩
    cases hr
    exact ⟨h, fun _ => rfl⟩
  · exact ⟨fun _ => hwait, fun x wakes hr => (by cases hr)⟩
  · refine ⟨fun hno => (by cases hno), fun x wakes hr => ?_⟩
    cases hr
    exact ⟨h, fun _ => rfl⟩
  · refine ⟨fun hno => (by cases hno), fun x wakes hr => ?_⟩
    cases hr
    exact ⟨drain_ok len h, fun hno => (by cases hno)⟩

end Pipe

/-! ## Whole steps -/

namespace Kernel.Sound

variable {k k' : Kernel T}

/-- A step that disturbs nobody who waits. -/
lemma moved (h : k.Sound) (hkept : ∀ onPipe, Undisturbed onPipe k k')
    (hpipe : ∀ p, (k'.pipes p).Ok) (hdir : ∀ c s, ((k'.conns c).dir s).buf.count ≤ sockCap) :
    k'.Sound := by
  refine ⟨fun t q hq => ?_, hpipe, hdir⟩
  obtain ⟨hq', hright⟩ := hkept q.onPipe t q hq rfl
  exact hright (h.rightly t q hq')

/-- A thread goes on, or to sleep for a reason. -/
lemma setThread [DecidableEq T] (h : k.Sound) (t : T) (status : Status)
    (hstatus : ∀ q, status = .blocked q → k.Rightly q) : (k.setThread t status).Sound := by
  refine ⟨fun t' q hq => ?_, h.pipe, h.dir⟩
  have hright : k.Rightly q := by
    by_cases ht : t' = t
    · rw [ht] at hq
      exact hstatus q ((update_self ..).symm.trans hq)
    · exact h.rightly t' q ((update_of_ne ht ..).symm.trans hq)
  exact ⟨hright.1, hright.2⟩

lemma released (h : k.Sound) (hreleased : Released k k') (hsockets : Undisturbed false k k') :
    k'.Sound := by
  refine h.moved (fun onPipe => ?_) (fun p => hreleased.pipe_ok (h.pipe p)) fun c s => ?_
  · cases onPipe
    · exact hsockets
    · exact hreleased.pipe
  · rw [hreleased.buf]
    exact h.dir c s

lemma milder (h : k.Sound) (hmilder : Milder k k') : k'.Sound :=
  h.released (.of_milder hmilder) (hmilder.undisturbed false)

end Kernel.Sound

section Steps

variable {k k' : Kernel T}

/-- Only one pipe changes, and whoever waits on a pipe is woken if it does. -/
lemma Kernel.Sound.setPipe (h : k.Sound) (p : ℕ) {x : Pipe} {wakes : Bool} (hx : x.Ok)
    (hsame : wakes = false → x = k.pipes p) : ((k.setPipe p x).wakeIf wakes true).Sound := by
  have hset : Undisturbed false k (k.setPipe p x) := .of_sockets_eq rfl rfl rfl rfl
  have hpipe : ∀ p', ((k.setPipe p x).pipes p').Ok :=
    (forall_update_iff k.pipes fun _ => Pipe.Ok).mpr ⟨hx, fun p' _ => h.pipe p'⟩
  cases wakes with
  | false =>
    have hk : k.setPipe p x = k := by
      rw [Kernel.setPipe, hsame rfl, update_eq_self]
    rw [hk]
    exact h
  | true =>
    refine h.moved (fun onPipe => ?_) hpipe h.dir
    cases onPipe
    · exact hset.trans (.wake _ true)
    · exact .woken k _ true

variable [DecidableEq T]

lemma Kernel.Sound.pipeRead (h : k.Sound) (t : T) {p : ℕ} (hp : p < k.pipeCount) (len : ℕ) :
    (k.pipeRead t p len).Sound := by
  obtain ⟨hnone, hsome⟩ := Pipe.read_ok len (h.pipe p)
  unfold Kernel.pipeRead
  cases hread : (k.pipes p).read len with
  | none =>
    refine h.setThread t _ fun q hq => ?_
    cases hq
    exact ⟨hnone hread, hp⟩
  | some r =>
    obtain ⟨hx, hsame⟩ := hsome r.1 r.2 hread
    exact (h.setPipe p hx hsame).setThread t _ fun q hq => (by cases hq)

/-- Writing to a pipe keeps the invariant. -/
lemma Kernel.Sound.pipeWrite (h : k.Sound) (t : T) {p : ℕ} (hp : p < k.pipeCount)
    (buf : List UInt8) (n : ℕ) : (k.pipeWrite t p buf n).Sound := by
  obtain ⟨hok, hle, hsame, hwaits⟩ :=
    Pipe.writeLoop_ok buf (buf.length + 1) (n := n) (h.pipe p) (by omega) (by omega)
  unfold Kernel.pipeWrite
  generalize (k.pipes p).writeLoop buf (buf.length + 1) n = r at *
  obtain ⟨x, e⟩ := r
  dsimp only at *
  have hset : ((k.setPipe p x).wakeIf (n < e.pos) true).Sound := by
    refine h.setPipe p hok fun hno => hsame ?_
    have := of_decide_eq_false hno
    omega
  refine hset.setThread t _ fun q hq => ?_
  cases e with
  | finished m => cases hq
  | broken m => cases hq
  | waiting m =>
    cases hq
    have hright : (k.setPipe p x).Rightly (.pipeWrite p buf m) := by
      refine ⟨?_, hp⟩
      rw [Kernel.Waits, setPipe_self]
      exact hwaits m rfl
    exact hright.wakeIf _ true

/-- Accepting keeps the invariant. -/
lemma Kernel.Sound.socketAccept (h : k.Sound) (t : T) {l : ℕ} (hl : l < k.listenerCount) :
    (k.socketAccept t l).Sound := by
  unfold Kernel.socketAccept
  cases hbacklog : (k.listeners l).backlog with
  | nil =>
    refine h.setThread t _ fun q hq => ?_
    cases hq
    exact ⟨hbacklog, hl⟩
  | cons c rest =>
    refine Kernel.Sound.setThread ?_ t _ fun q hq => (by cases hq)
    refine h.moved (fun onPipe => ?_) h.pipe h.dir
    refine .of_there rfl (fun _ _ => rfl) le_rfl (fun l' _ hwaits => ?_) le_rfl
      fun _ _ hq => ⟨hq.1, hq.2⟩
    -- nobody waits on this listener, as it has a backlog
    have hne : l' ≠ l := by
      rintro rfl
      rw [Kernel.Waits, hbacklog] at hwaits
      cases hwaits
    rw [Kernel.Waits, setListener_of_ne k l hne]
    exact hwaits

omit [DecidableEq T] in
/-- A call on a connection that wakes nobody. -/
lemma Conn.Fair.undisturbed {c : ℕ} {s onPipe : Bool}
    {r : Conn Desc × Effect Desc × Option (Pending Desc)} (hfair : Conn.Fair s (k.conns c) r)
    (hwakes : r.2.1.wakes = false) : Undisturbed onPipe k (k.setConn c r.1) := by
  refine .of_there rfl (fun _ _ => rfl) le_rfl (fun _ _ hwaits => hwaits) le_rfl fun c' q hq => ?_
  obtain ⟨hwaits, hthere⟩ := hq
  by_cases hc : c' = c
  · rw [hc] at hwaits hthere ⊢
    refine ⟨?_, ?_⟩
    · rw [Kernel.Waits, setConn_self]
      exact hfair.keeps hwakes q hthere hwaits
    · rw [Kernel.Exists, setConn_self, hfair.closed]
      exact hthere
  · refine ⟨?_, ?_⟩
    · rw [Kernel.Waits, setConn_of_ne k c hc]
      exact hwaits
    · rw [Kernel.Exists, setConn_of_ne k c hc]
      exact hthere

/-- A call on a connection. -/
lemma Kernel.Sound.talked (h : k.Sound) (t : T) {c : ℕ} {s : Bool}
    (hopen : (k.conns c).closed s = false) {r : Conn Desc × Effect Desc × Option (Pending Desc)}
    (hfair : Conn.Fair s (k.conns c) r) : (k.talked t c r).Sound := by
  have hretain := foldlRecOn (motive := Milder (k.setConn c r.1)) r.2.1.queued _ (.refl _)
    fun k' h d _ => h.trans (.retain k' d)
  have hdir : ∀ c' s', (((k.setConn c r.1).conns c').dir s').buf.count ≤ sockCap :=
    (forall_update_iff k.conns fun _ x => ∀ s', (x.dir s').buf.count ≤ sockCap).mpr
      ⟨hfair.count, fun c' _ => h.dir c'⟩
  have hsound : ((r.2.1.queued.foldl Kernel.retain (k.setConn c r.1)).wakeIf
      r.2.1.wakes false).Sound := by
    cases hwakes : r.2.1.wakes with
    | false =>
      have hset : (k.setConn c r.1).Sound := h.moved (fun _ => hfair.undisturbed hwakes) h.pipe hdir
      exact hset.milder hretain
    | true =>
      have hset : Undisturbed true k (k.setConn c r.1) := .of_pipes_eq rfl rfl rfl
      have hreleased := (Released.of_milder hretain).trans (.wake _ false)
      refine h.moved (fun onPipe => ?_) (fun p => hreleased.pipe_ok (h.pipe p)) fun c' s' => ?_
      · cases onPipe
        · exact .woken k _ false
        · exact hset.trans hreleased.pipe
      · exact (congrArg Ring.count (hreleased.buf c' s')).trans_le (hdir c' s')
  refine hsound.setThread t _ fun q hq => ?_
  cases hpending : r.2.2 with
  | none =>
    rw [hpending] at hq
    cases hq
  | some pending =>
    rw [hpending] at hq
    cases hq
    obtain ⟨hwaits, hside⟩ := hfair.blocks pending hpending
    have hright : (k.setConn c r.1).Rightly (.talk c pending) := by
      refine ⟨?_, ?_⟩
      · rw [Kernel.Waits, setConn_self]
        exact hwaits
      · rw [Kernel.Exists, setConn_self, hfair.closed, hside]
        exact hopen
    exact (hretain.rightly hright).wakeIf _ false

/-- A woken thread looks at its condition again, from where it blocked. -/
lemma Kernel.Sound.resumed (h : k.Sound) (t : T) (hlive : k.Live q.desc) :
    (k.resumed t q).Sound := by
  cases q with
  | pipeRead p len => exact h.pipeRead t hlive.1 len
  | pipeWrite p buf n => exact h.pipeWrite t hlive.1 buf n
  | accept l => exact h.socketAccept t hlive.1
  | talk c q =>
    cases q with
    | sendFds s buf fds => exact h.talked t hlive.2 (sendFds_fair (h.dir c) buf fds)
    | sendRoom s buf n =>
      -- the descriptors were queued before it blocked
      refine h.talked t hlive.2 ?_
      exact sendBytes_fair (h.dir c) buf n [] rfl rfl rfl le_rfl (fun _ => rfl)
        (fun hne => absurd rfl hne)
    | recv s len want => exact h.talked t hlive.2 (socketRecv_fair (h.dir c) len want)

omit [DecidableEq T] in
/-- A new listener keeps the invariant. -/
lemma Kernel.Sound.socketListen (h : k.Sound) (path : List UInt8) (owner : ℕ) (memory : Bool) :
    (k.socketListen path owner memory).1.Sound := by
  unfold Kernel.socketListen
  split
  · exact h
  split
  · exact h
  split
  · exact h
  refine h.moved (fun onPipe => ?_) h.pipe h.dir
  refine .of_there rfl (fun _ _ => rfl) le_rfl (fun l hl hwaits => ?_) (Nat.le_succ _)
    fun _ _ hq => ⟨hq.1, hq.2⟩
  -- the new listener has a number of its own
  change (update k.listeners k.listenerCount _ l).backlog = []
  rw [update_of_ne (Nat.ne_of_lt hl)]
  exact hwaits

omit [DecidableEq T] in
/-- A connection keeps the invariant: it wakes who accepts. -/
lemma Kernel.Sound.socketConnect (h : k.Sound) (path : List UInt8) (uid : ℕ) (memory : Bool) :
    (k.socketConnect path uid memory).1.Sound := by
  unfold Kernel.socketConnect
  split
  · exact h
  dsimp only
  split
  · exact h
  split
  · exact h
  split
  · exact h
  refine h.moved (fun onPipe => ?_) h.pipe ((forall_update_iff k.conns fun _ x =>
    ∀ s, (x.dir s).buf.count ≤ sockCap).mpr ⟨fun _ => Nat.zero_le _, fun c _ => h.dir c⟩)
  cases onPipe
  · exact .woken k _ false
  · refine Undisturbed.trans ?_ (Undisturbed.wake _ false)
    exact .of_pipes_eq rfl rfl rfl

lemma Pipe.fresh_ok : Pipe.fresh.Ok := ⟨Ring.ok_empty (by decide) 0, rfl⟩

omit [DecidableEq T] in
/-- `pipe_create`: the new pipe has a number of its own. -/
lemma Kernel.Sound.pipeCreate (h : k.Sound) :
    Kernel.Sound { k with
      pipes := update k.pipes k.pipeCount .fresh, pipeCount := k.pipeCount + 1 } := by
  refine h.moved (fun onPipe => ?_) ((forall_update_iff k.pipes fun _ => Pipe.Ok).mpr
    ⟨Pipe.fresh_ok, fun p _ => h.pipe p⟩) h.dir
  refine .of_there rfl (fun p hp => ?_) (Nat.le_succ _) (fun _ _ hwaits => hwaits) le_rfl
    fun _ _ hq => ⟨hq.1, hq.2⟩
  exact update_of_ne (Nat.ne_of_lt hp) ..

/-- Every step keeps the invariant. -/
lemma Kernel.Sound.step {call : IpcCall T} (h : k.Sound) (hstep : ipcStep k call k') :
    k'.Sound := by
  obtain ⟨hallows, hexec⟩ := hstep
  cases call with
  | pipe =>
    cases hexec
    exact h.pipeCreate
  | read t p len =>
    cases hexec
    exact h.pipeRead t hallows.2.1 len
  | write t p buf =>
    cases hexec
    exact h.pipeWrite t hallows.2.1 buf 0
  | listen path owner memory =>
    cases hexec
    exact h.socketListen path owner memory
  | connect path uid memory =>
    cases hexec
    exact h.socketConnect path uid memory
  | accept t l =>
    cases hexec
    exact h.socketAccept t hallows.2.1
  | send t c s buf fds =>
    cases hexec
    exact h.talked t hallows.2.1.2 (socketSend_fair (h.dir c) buf fds)
  | recv t c s len want =>
    cases hexec
    exact h.talked t hallows.2.2 (socketRecv_fair (h.dir c) len want)
  | retain d =>
    cases hexec
    exact h.milder (Milder.retain k d)
  | drop d fuel =>
    obtain ⟨hreleased, hsockets⟩ := release_released fuel hexec
    exact h.released hreleased (hsockets d rfl)
  | resume t =>
    rw [Kernel.exec] at hexec
    cases hstatus : k.threads t with
    | outside | blocked q =>
      rw [hstatus] at hexec
      cases hexec
    | ready q =>
      rw [hstatus] at hexec
      cases hexec
      exact h.resumed t (hallows q hstatus)
  | kill t =>
    cases hexec
    exact h.setThread t _ fun q hq => (by cases hq)

omit [DecidableEq T] in
lemma Kernel.Sound.boot (T : Type) : (Kernel.boot T).Sound :=
  ⟨fun _ _ hq => (by cases hq), fun _ => Pipe.fresh_ok, fun _ _ => Nat.zero_le _⟩

/-- No wake-up is lost: whatever any number of threads do, in any order, every thread that is blocked
still has its reason to wait, and what was read from a pipe is a prefix of what was put into it. -/
theorem run_waits {calls : List (IpcCall T)} (hrun : Run ipcStep (Kernel.boot T) calls k) :
    (∀ t q, k.threads t = .blocked q → k.Waits q) ∧ ∀ p, (k.pipes p).got <+: (k.pipes p).put := by
  have h : k.Sound := hrun.invariant (fun _ _ _ hs hstep => hs.step hstep) (.boot T)
  refine ⟨fun t q hq => (h.rightly t q hq).waits, fun p => ?_⟩
  rw [(h.pipe p).put_eq]
  exact prefix_append ..

end Steps

/-- Three threads. -/
inductive Party
  | server | client | reader
  deriving DecidableEq

/-- The reader waits for a pipe until the server writes into it, and waits again. The server waits for
the client to connect, and then for a message until the client sends one with a descriptor; it
receives both and waits for the next. -/
def someCalls : List (IpcCall Party) :=
  [.pipe, .read .reader 0 8, .write .server 0 [1, 2, 3], .resume .reader, .read .reader 0 8,
    .listen [115] 0 true, .accept .server 0, .connect [115] 0 true, .resume .server,
    .recv .server 0 true 4 1, .send .client 0 false [7] [.pipe 0 true], .resume .server,
    .recv .server 0 true 4 0]

/-- Both threads that are blocked in the end wait rightly. -/
theorem run_waits_someCalls : ∃ k, Run ipcStep (Kernel.boot Party) someCalls k ∧
    k.threads .reader = .blocked (.pipeRead 0 8) ∧ k.Waits (.pipeRead 0 8) ∧
    k.threads .server = .blocked (.talk 0 (.recv true 4 0)) ∧ k.Waits (.talk 0 (.recv true 4 0)) ∧
    (k.pipes 0).got = [1, 2, 3] ∧ (k.pipes 0).got <+: (k.pipes 0).put := by
  have hrun : ∃ k, Run ipcStep (Kernel.boot Party) someCalls k ∧
      k.threads .reader = .blocked (.pipeRead 0 8) ∧
      k.threads .server = .blocked (.talk 0 (.recv true 4 0)) ∧ (k.pipes 0).got = [1, 2, 3] :=
    ⟨_, .cons ⟨trivial, rfl⟩ <| .cons ⟨⟨rfl, by decide, by decide⟩, rfl⟩ <|
      .cons ⟨⟨rfl, by decide, by decide⟩, rfl⟩ <|
      .cons ⟨fun q hq => by cases hq; exact ⟨by decide, by decide⟩, rfl⟩ <|
      .cons ⟨⟨rfl, by decide, by decide⟩, rfl⟩ <|
      .cons ⟨trivial, rfl⟩ <|
      .cons ⟨⟨rfl, by decide, by decide⟩, rfl⟩ <|
      .cons ⟨trivial, rfl⟩ <|
      .cons ⟨fun q hq => by cases hq; exact ⟨by decide, by decide⟩, rfl⟩ <|
      .cons ⟨⟨rfl, by decide, by decide⟩, rfl⟩ <|
      .cons ⟨⟨rfl, ⟨by decide, by decide⟩, List.forall_mem_singleton.mpr ⟨by decide, by decide⟩⟩,
        rfl⟩ <|
      .cons ⟨fun q hq => by cases hq; exact ⟨by decide, by decide⟩, rfl⟩ <|
      .cons ⟨⟨rfl, by decide, by decide⟩, rfl⟩ <| .nil _, rfl, rfl, rfl⟩
  obtain ⟨k, hrun, hpipe, hsock, hgot⟩ := hrun
  obtain ⟨hwaits, hqueue⟩ := run_waits hrun
  exact ⟨k, hrun, hpipe, hwaits _ _ hpipe, hsock, hwaits _ _ hsock, hgot, hqueue 0⟩

end Wos.Ipc
