import Wos.Ipc.Socket

/-!
# What the calls on a connection do

Each loop of `socket_send` and `socket_recv` is described by what it does to the bytes and the
queued descriptors of a direction, read as lists. From that, `Turn` says everything a step of the
machine can be, for any number of threads, and every invariant of the machine is proved by cases on
it.

## Main definitions

* `Dir.bytes`, `Dir.queue`: what waits in a direction;
* `Sends`, `Takes`: what a send and a receive do to a direction;
* `Turn`: everything a step can be.

## Main results

* `sockStep_turn`: every step is a `Turn`.
-/

namespace Wos.Ipc

open Function List Conn Option Nat

variable {F : Type}

/-! ## One direction -/

namespace Dir

/-- The indices of both ring buffers fit together. -/
structure Ok (d : Dir F) : Prop where
  buf : d.buf.Ok sockCap
  fds : d.fds.Ok sockFdCap

/-- The bytes that wait to be read. -/
def bytes (d : Dir F) : List UInt8 := d.buf.contents sockCap

/-- The descriptors that wait to be handed over. -/
def queue (d : Dir F) : List (F × ℕ) := d.fds.contents sockFdCap

lemma ok_zero [Inhabited F] : (zero F).Ok :=
  ⟨Ring.ok_empty (by decide) _, Ring.ok_empty (by decide) _⟩

variable {d : Dir F} (h : d.Ok)

include h

/-- The bytes that fit are appended. -/
lemma fill_spec (bs : List UInt8) :
    (d.fill bs).1.Ok ∧ (d.fill bs).1.bytes = d.bytes ++ bs.take (d.fill bs).2 ∧
      (d.fill bs).2 = min bs.length (sockCap - d.buf.count) ∧
      (∀ a, d.written = a % word64 → (d.fill bs).1.written = (a + (d.fill bs).2) % word64) ∧
      (d.fill bs).1.read = d.read ∧ (d.fill bs).1.fds = d.fds := by
  induction bs generalizing d with
  | nil => exact ⟨h, by simp [fill], (Nat.zero_min _).symm, fun _ hw => hw, rfl, rfl⟩
  | cons b bs ih =>
    rw [fill]
    split
    next hroom =>
      have hput : (d.put b).Ok := ⟨h.buf.push hroom b, h.fds⟩
      have hw' : ∀ a, d.written = a % word64 → (d.put b).written = (a + 1) % word64 := by
        intro a hw
        change (d.written + 1) % word64 = _
        rw [hw, mod_add_mod]
      obtain ⟨hok, hbytes, hn, hwritten, hread, hfds⟩ := ih hput
      have hcount : (d.put b).buf.count = d.buf.count + 1 := rfl
      have happend : (d.put b).bytes = d.bytes ++ [b] := h.buf.contents_push hroom b
      change (Dir.Ok _ ∧ Dir.bytes _ = d.bytes ++ (b :: bs).take (((d.put b).fill bs).2 + 1) ∧
        ((d.put b).fill bs).2 + 1 = _ ∧
        (∀ a, _ → _ = (a + (((d.put b).fill bs).2 + 1)) % word64) ∧ _)
      refine ⟨hok, ?_, ?_, ?_, hread, hfds⟩
      · rw [hbytes, happend, append_assoc]
        rfl
      · rw [hn, hcount, length_cons]
        omega
      · intro a hw
        rw [hwritten _ (hw' a hw), add_assoc, add_comm 1]
    next hfull =>
      refine ⟨h, by simp, ?_, fun _ hw => hw, rfl, rfl⟩
      omega

/-- The descriptors of a message are appended, with the position at which it ends. -/
lemma queueFds_spec (len : ℕ) (fds : List F) (hroom : d.fds.count + fds.length ≤ sockFdCap) :
    (d.queueFds len fds).Ok ∧
      (d.queueFds len fds).queue = d.queue ++ fds.map (·, (d.written + len) % word64) ∧
      (d.queueFds len fds).buf = d.buf ∧ (d.queueFds len fds).written = d.written ∧
      (d.queueFds len fds).read = d.read := by
  induction fds generalizing d with
  | nil => exact ⟨h, by simp [queueFds], rfl, rfl, rfl⟩
  | cons f fds ih =>
    rw [length_cons] at hroom
    let d1 : Dir F := { d with fds := d.fds.push sockFdCap (f, (d.written + len) % word64) }
    have h1 : d1.Ok := ⟨h.buf, h.fds.push (by omega) _⟩
    have hqueue : d1.queue = d.queue ++ [(f, (d.written + len) % word64)] :=
      h.fds.contents_push (by omega) _
    have hcount : d1.fds.count = d.fds.count + 1 := rfl
    obtain ⟨hok, hq, hbuf, hwritten, hread⟩ := ih h1 (by omega)
    refine ⟨hok, hq.trans ?_, hbuf, hwritten, hread⟩
    rw [hqueue, append_assoc]
    rfl

/-- The bytes read are those at the front. -/
lemma drain_spec (len : ℕ) :
    (d.drain len).2.Ok ∧ d.bytes = (d.drain len).1 ++ (d.drain len).2.bytes ∧
      (d.drain len).1.length = min len d.buf.count ∧
      (∀ a, d.read = a % word64 → (d.drain len).2.read = (a + (d.drain len).1.length) % word64) ∧
      (d.drain len).2.written = d.written ∧ (d.drain len).2.fds = d.fds := by
  induction len generalizing d with
  | zero => exact ⟨h, rfl, (Nat.zero_min _).symm, fun _ hr => hr, rfl, rfl⟩
  | succ len ih =>
    rw [drain]
    split
    next hsome =>
      have hget : d.get.Ok := ⟨h.buf.pop hsome, h.fds⟩
      have hr' : ∀ a, d.read = a % word64 → d.get.read = (a + 1) % word64 := by
        intro a hr
        change (d.read + 1) % word64 = _
        rw [hr, mod_add_mod]
      obtain ⟨hok, hbytes, hn, hread, hwritten, hfds⟩ := ih hget
      have hcount : d.get.buf.count = d.buf.count - 1 := rfl
      have hfront : d.bytes = d.buf.front :: d.get.bytes := h.buf.contents_pop hsome
      refine ⟨hok, ?_, ?_, ?_, hwritten, hfds⟩
      · rw [hfront, hbytes]
        rfl
      · rw [length_cons, hn, hcount]
        omega
      · intro a hr
        rw [hread _ (hr' a hr), length_cons, add_assoc, add_comm 1]
    next hnone =>
      exact ⟨h, rfl, by rw [length_nil]; omega, fun _ hr => hr, rfl, rfl⟩

/-- The descriptors handed over are those at the front, as far as they have been read past. -/
lemma handOver_spec (want : ℕ) :
    (d.handOver want).2.Ok ∧ (d.handOver want).2.buf = d.buf ∧
      (d.handOver want).2.written = d.written ∧ (d.handOver want).2.read = d.read ∧
      ∃ got, d.queue = got ++ (d.handOver want).2.queue ∧ (d.handOver want).1 = got.map Prod.fst ∧
        (∀ e ∈ got, e.2 ≤ d.read) ∧
        (got.length = want ∨ ∀ e ∈ (d.handOver want).2.queue.head?, d.read < e.2) := by
  induction want generalizing d with
  | zero => exact ⟨h, rfl, rfl, rfl, [], rfl, rfl, by simp, Or.inl rfl⟩
  | succ want ih =>
    rw [handOver]
    split
    next hnext =>
      let d1 : Dir F := { d with fds := d.fds.pop sockFdCap }
      have h1 : d1.Ok := ⟨h.buf, h.fds.pop hnext.1⟩
      have hfront : d.queue = d.fds.front :: d1.queue := h.fds.contents_pop hnext.1
      obtain ⟨hok, hbuf, hwritten, hread, got, hqueue, hout, hpast, hstop⟩ := ih h1
      refine ⟨hok, hbuf, hwritten, hread, d.fds.front :: got, ?_, ?_, ?_, ?_⟩
      · rw [hfront, hqueue]
        rfl
      · rw [map_cons, ← hout]
      · exact forall_mem_cons.mpr ⟨hnext.2, hpast⟩
      · exact hstop.imp (congrArg (· + 1)) id
    next hnext =>
      refine ⟨h, rfl, rfl, rfl, [], rfl, rfl, by simp, Or.inr fun e he => ?_⟩
      -- the front is there, so it has not been read past
      have hsome : 0 < d.fds.count := by
        refine Nat.pos_of_ne_zero fun hz => ?_
        rw [queue, Ring.contents_eq_nil_iff.mpr hz] at he
        cases he
      rw [queue, h.fds.contents_pop hsome, List.head?_cons] at he
      obtain rfl := some.inj he
      exact Nat.lt_of_not_le fun hle => hnext ⟨hsome, hle⟩

lemma dropQueuedFds_spec : d.dropQueuedFds.Ok ∧ d.dropQueuedFds.queue = [] :=
  ⟨⟨h.buf, h.fds.clear.1⟩, h.fds.clear.2⟩

end Dir

/-! ## What a step does -/

/-- Bytes are appended to a direction of the connection and nothing else changes. -/
structure Appends (s : Bool) (c c' : Conn F) (bs : List UInt8) : Prop where
  refs_eq : c'.refs = c.refs
  closed_eq : c'.closed = c.closed
  /-- The other direction stays. -/
  other : c'.dir (!s) = c.dir (!s)
  ok : (c'.dir s).Ok
  /-- The bytes are behind those that wait. -/
  bytes_eq : (c'.dir s).bytes = (c.dir s).bytes ++ bs
  /-- The position of the writer moves on, in 64 bits. -/
  written : ∀ a, (c.dir s).written = a % word64 →
    (c'.dir s).written = (a + bs.length) % word64
  /-- The reader stays where it was. -/
  read_eq : (c'.dir s).read = (c.dir s).read
  /-- No descriptor comes or goes. -/
  queue_eq : (c'.dir s).queue = (c.dir s).queue

namespace Conn

variable {s : Bool} {c : Conn F} {d : Dir F}

@[simp]
lemma setDir_self : (c.setDir s d).dir s = d := update_self ..

@[simp]
lemma setDir_other : (c.setDir s d).dir (!s) = c.dir (!s) :=
  update_of_ne (Bool.not_ne_self s) _ _

end Conn

variable {s : Bool} {c : Conn F}

lemma Appends.refl (h : (c.dir s).Ok) : Appends s c c [] :=
  ⟨rfl, rfl, rfl, h, (append_nil _).symm, fun _ ha => ha, rfl, rfl⟩

variable {c' : Conn F}

/-- One round of the loop of `socket_send`. -/
lemma Dir.Ok.fill_appends (h : (c.dir s).Ok) (bs : List UInt8) :
    Appends s c (c.setDir s ((c.dir s).fill bs).1) (bs.take ((c.dir s).fill bs).2) := by
  obtain ⟨hok, hbytes, hn, hwritten, hread, hfds⟩ := Dir.fill_spec h bs
  have hlen : (bs.take ((c.dir s).fill bs).2).length = ((c.dir s).fill bs).2 := by
    rw [length_take]
    omega
  refine ⟨rfl, rfl, setDir_other, ?_, ?_, fun a ha => ?_, ?_, ?_⟩ <;> rw [setDir_self]
  · exact hok
  · exact hbytes
  · rw [hlen]
    exact hwritten a ha
  · exact hread
  · rw [Dir.queue, hfds]
    rfl

/-- The byte at which the loop of `socket_send` stopped. -/
def SendEnd.pos : SendEnd → ℕ
  | finished n => n
  | broken n => n
  | waiting n => n

/-- What the thread resumes with. -/
def SendEnd.pending (s : Bool) (buf : List UInt8) : SendEnd → Option (Pending F)
  | finished _ => none
  | broken _ => none
  | waiting n => some (.sendRoom s buf n)

variable {buf bs : List UInt8} {q : Pending F} {n len : ℕ}

lemma SendEnd.pending_eq_some {s : Bool} (e : SendEnd)
    (h : e.pending s buf = some q) : ∃ n, e = .waiting n ∧ q = .sendRoom s buf n := by
  cases e with
  | finished | broken => cases h
  | waiting n => exact ⟨n, rfl, (some.inj h).symm⟩

/-- What `socket_send` returns, if it does. -/
def SendEnd.result : SendEnd → Option (Except Errno ℕ)
  | finished n => some (.ok n)
  | broken n => some (if 0 < n then .ok n else .error .EPIPE)
  | waiting _ => none

/-- Why the loop of `socket_send` stopped: all is written, or the peer has gone, or there is no room
for the next byte. -/
def SendEnd.Why (gone : Bool) (len : ℕ) : SendEnd → Prop
  | finished n => len ≤ n
  | broken _ => gone = true
  | waiting n => n < len ∧ gone = false

/-- How many bytes fit into the buffer. -/
lemma Dir.fill_count (bs : List UInt8) {d : Dir F} (h : d.buf.count ≤ sockCap) :
    (d.fill bs).1.buf.count = d.buf.count + (d.fill bs).2 ∧
      (d.fill bs).2 = min bs.length (sockCap - d.buf.count) ∧
      ((d.fill bs).2 = 0 → (d.fill bs).1 = d) := by
  induction bs generalizing d with
  | nil => exact ⟨rfl, (Nat.zero_min _).symm, fun _ => rfl⟩
  | cons b bs ih =>
    rw [Dir.fill]
    split_ifs with hroom
    · have hput : (d.put b).buf.count = d.buf.count + 1 := rfl
      obtain ⟨hcount, hn, -⟩ := ih (d := d.put b) (by omega)
      refine ⟨?_, ?_, fun hzero => by cases hzero⟩
      · dsimp only
        omega
      · dsimp only
        rw [length_cons]
        omega
    · refine ⟨rfl, ?_, fun _ => rfl⟩
      omega

/-- The loop of `socket_send` makes one round. Then all is written, or the buffer is full and the next
round waits. -/
lemma Conn.sendLoop_eq (s : Bool) (buf : List UInt8) (fuel : ℕ)
    (hcount : (c.dir s).buf.count ≤ sockCap) (hn : n < buf.length)
    (hfuel : buf.length < n + fuel) : sendLoop s buf fuel c n =
      if c.peerGone s then (c, .broken n)
      else
        let r := (c.dir s).fill (buf.drop n)
        (c.setDir s r.1, if buf.length ≤ n + r.2 then .finished (n + r.2) else .waiting (n + r.2)) := by
  obtain ⟨fuel, rfl⟩ : ∃ k, fuel = k + 2 := ⟨fuel - 2, by omega⟩
  obtain ⟨hfill, hk, hnone⟩ := Dir.fill_count (buf.drop n) hcount
  rw [length_drop] at hk
  rw [sendLoop]
  by_cases hgone : c.peerGone s = true
  · rw [if_pos hgone, if_pos hgone]
  rw [if_neg hgone, if_neg hgone]
  dsimp only
  generalize ((c.dir s).fill (buf.drop n)).1 = d at *
  generalize ((c.dir s).fill (buf.drop n)).2 = k at *
  by_cases hfull : (c.dir s).buf.count = sockCap
  · obtain rfl : k = 0 := by omega
    rw [if_pos hfull, hnone rfl, if_neg (by omega), Conn.setDir, update_eq_self]
    rfl
  rw [if_neg hfull]
  split_ifs with hmore
  · rfl
  have hfull' : ((c.setDir s d).dir s).buf.count = sockCap := by
    rw [setDir_self]
    omega
  have hgone' : ¬ (c.setDir s d).peerGone s = true := hgone
  rw [sendLoop, if_neg hgone', if_pos hfull']

/-- The loop of `socket_send` writes a stretch of the message. -/
lemma Conn.sendLoop_spec (s : Bool) (buf : List UInt8) (fuel : ℕ) (h : (c.dir s).Ok)
    (hn : n < buf.length) (hfuel : buf.length < n + fuel) :
    let r := sendLoop s buf fuel c n
    n ≤ r.2.pos ∧ Appends s c r.1 ((buf.drop n).take (r.2.pos - n)) ∧
      r.2.Why (c.peerGone s) buf.length ∧ (c.peerGone s = true → r.2.pos = n) := by
  rw [sendLoop_eq s buf fuel h.buf.count_le hn hfuel]
  cases hgone : c.peerGone s with
  | true =>
    rw [if_pos rfl]
    refine ⟨le_rfl, ?_, rfl, fun _ => rfl⟩
    rw [show (SendEnd.broken n).pos - n = 0 from Nat.sub_self n, take_zero]
    exact .refl h
  | false =>
    rw [if_neg Bool.false_ne_true]
    have happ := h.fill_appends (buf.drop n)
    rw [← Nat.add_sub_cancel_left (n := n) (m := ((c.dir s).fill (buf.drop n)).2)] at happ
    dsimp only
    split
    next hall => exact ⟨le_add_right n _, happ, hall, fun hg => absurd hg Bool.false_ne_true⟩
    next hmore =>
      exact ⟨le_add_right n _, happ, ⟨Nat.lt_of_not_le hmore, rfl⟩,
        fun hg => absurd hg Bool.false_ne_true⟩

/-- The rest of `socket_send` once the descriptors are queued. -/
lemma Conn.sendBytes_spec (s : Bool) (buf : List UInt8) (h : (c.dir s).Ok) (n : ℕ)
    (queued : List F) :
    ∃ (c' : Conn F) (e : SendEnd), c.sendBytes s buf n queued =
        (c', .sent s queued buf ((buf.drop n).take (e.pos - n)) e.result, e.pending s buf) ∧
      n ≤ e.pos ∧ Appends s c c' ((buf.drop n).take (e.pos - n)) ∧
      e.Why (c.peerGone s) buf.length ∧ (c.peerGone s = true → e.pos = n) := by
  unfold sendBytes
  by_cases hall : buf.length ≤ n
  · rw [if_pos hall]
    refine ⟨c, .finished n, rfl, le_rfl, ?_, hall, fun _ => rfl⟩
    rw [show (SendEnd.finished n).pos - n = 0 from Nat.sub_self n, take_zero]
    exact .refl h
  · rw [if_neg hall]
    have hspec := sendLoop_spec s buf (buf.length + 1) h (Nat.lt_of_not_le hall) (by omega)
    generalize sendLoop s buf (buf.length + 1) c n = r at hspec ⊢
    obtain ⟨c', e⟩ := r
    exact ⟨c', e, by cases e <;> rfl, hspec⟩

/-- A stretch of a message of `len` bytes is written, and its descriptors are queued before it if
they were not yet. -/
structure Sends (s : Bool) (c c' : Conn F) (len : ℕ) (queued : List F) (bs : List UInt8) : Prop where
  closed_eq : c'.closed = c.closed
  /-- The other direction stays. -/
  other : c'.dir (!s) = c.dir (!s)
  ok : (c'.dir s).Ok
  /-- The bytes are behind those that wait. -/
  bytes_eq : (c'.dir s).bytes = (c.dir s).bytes ++ bs
  /-- The position of the writer moves on, in 64 bits. -/
  written : ∀ a, (c.dir s).written = a % word64 →
    (c'.dir s).written = (a + bs.length) % word64
  read_eq : (c'.dir s).read = (c.dir s).read
  /-- The descriptors wait for the end of the message, as it is computed before it is written. -/
  queue_eq : (c'.dir s).queue =
    (c.dir s).queue ++ queued.map (·, ((c.dir s).written + len) % word64)

lemma Appends.sends (h : Appends s c c' bs) (len : ℕ) : Sends s c c' len [] bs :=
  { h with queue_eq := h.queue_eq.trans (append_nil _).symm }

lemma Appends.sends_queued {queued : List F} (hok : (c.dir s).Ok)
    (hroom : (c.dir s).fds.count + queued.length ≤ sockFdCap)
    (h : Appends s (c.setDir s ((c.dir s).queueFds len queued)) c' bs) :
    Sends s c c' len queued bs := by
  obtain ⟨-, hqueue, hbuf, hwritten, hread⟩ := Dir.queueFds_spec hok len queued hroom
  refine ⟨h.closed_eq, h.other.trans setDir_other, h.ok, ?_, fun a ha => h.written a ?_, ?_, ?_⟩
  · rw [h.bytes_eq, setDir_self, Dir.bytes, hbuf]
    rfl
  · rw [setDir_self, hwritten, ha]
  · rw [h.read_eq, setDir_self, hread]
  · rw [h.queue_eq, setDir_self, hqueue]

/-- A receive takes bytes from the front of the direction and descriptors from the front of its
queue, as far as they have been read past. -/
structure Takes (s : Bool) (c c' : Conn F) (want : ℕ) (bytes : List UInt8) (fds : List F) :
    Prop where
  closed_eq : c'.closed = c.closed
  /-- The other direction stays. -/
  other : c'.dir (!s) = c.dir (!s)
  ok : (c'.dir s).Ok
  /-- The bytes come from the front. -/
  bytes_eq : (c.dir s).bytes = bytes ++ (c'.dir s).bytes
  /-- The writer stays where it was. -/
  written_eq : (c'.dir s).written = (c.dir s).written
  /-- The position of the reader moves on, in 64 bits. -/
  read : ∀ a, (c.dir s).read = a % word64 → (c'.dir s).read = (a + bytes.length) % word64
  /-- Descriptors come from the front, none before its message has been read past, and no more than
  asked for; either as many as that, or all that have been read past. -/
  taken : ∃ got, (c.dir s).queue = got ++ (c'.dir s).queue ∧ fds = got.map Prod.fst ∧
    (∀ e ∈ got, e.2 ≤ (c'.dir s).read) ∧
    (got.length = want ∨ ∀ e ∈ (c'.dir s).queue.head?, (c'.dir s).read < e.2)

/-- `socket_recv` waits, or takes something. -/
lemma Conn.socketRecv_spec (s : Bool) (h : (c.dir (!s)).Ok) (len want : ℕ) :
    c.socketRecv s len want = (c, .quiet, some (.recv s len want)) ∨
      ∃ c' bytes fds, c.socketRecv s len want = (c', .received s len want bytes fds, none) ∧
        Takes (!s) c c' want bytes fds := by
  unfold socketRecv
  dsimp only
  split_ifs
  · exact .inl rfl
  obtain ⟨hok, hbytes, -, hread, hwritten, hfds⟩ := Dir.drain_spec h len
  obtain ⟨hok', hbuf, hwritten', hread', got, hqueue, hout, hpast, hstop⟩ :=
    Dir.handOver_spec hok want
  refine .inr ⟨_, _, _, rfl, rfl, ?_, ?_, ?_, ?_, fun a ha => ?_, got, ?_⟩
  · rw [setDir_other]
  · rw [setDir_self]
    exact hok'
  · have hkept : (((c.dir !s).drain len).2.handOver want).2.bytes = ((c.dir !s).drain len).2.bytes :=
      congrArg (Ring.contents sockCap) hbuf
    rw [setDir_self, hkept]
    exact hbytes
  · rw [setDir_self, hwritten', hwritten]
  · rw [setDir_self, hread', hread a ha]
  · rw [setDir_self, hread', ← hqueue, Dir.queue, Dir.queue, hfds]
    exact ⟨rfl, hout, hpast, hstop⟩

/-! ## What a step can be -/

section Turns

variable {T : Type} [DecidableEq T]

/-- Thread `t` is at the place `q`: it has just made the call, or it was blocked there. -/
inductive World.At (w : World T F) : Call T F → T → Pending F → Prop
  | sends {t : T} {s : Bool} {buf : List UInt8} {fds : List F} (hwaiting : w.waiting t = none)
      (hgone : w.gone t = false) : At w (.send t s buf fds) t (.sendFds s buf fds)
  | receives {t : T} {s : Bool} {len want : ℕ} (hwaiting : w.waiting t = none)
      (hgone : w.gone t = false) : At w (.recv t s len want) t (.recv s len want)
  | resumes {t : T} {q : Pending F} (hwaiting : w.waiting t = some q) : At w (.resume t) t q

variable {call : Call T F}

omit [DecidableEq T] in
/-- A blocked thread is at the place where it blocked. -/
lemma World.At.eq {w : World T F} {t : T} {r : Pending F} (h : w.At call t q)
    (hr : w.waiting t = some r) : r = q := by
  cases h with
  | sends hwaiting | receives hwaiting =>
    exact absurd (hr.symm.trans hwaiting) (some_ne_none r)
  | resumes hwaiting => exact mem_unique hr hwaiting

/-- Everything a step can be. -/
inductive Turn (w : World T F) : Call T F → World T F → Effect F → Prop
  /-- At most a reference count has changed. -/
  | idle {call : Call T F} {w' : World T F} (hdir : w'.conn.dir = w.conn.dir)
      (hclosed : w'.conn.closed = w.conn.closed) (hwaiting : w'.waiting = w.waiting)
      (hgone : w'.gone = w.gone) : Turn w call w' .quiet
  | killed (t : T) : Turn w (.kill t) { w with
      waiting := Function.update w.waiting t none
      gone := Function.update w.gone t true } .quiet
  | recvWaits {call : Call T F} (t : T) (s : Bool) (len want : ℕ) (hopen : w.conn.closed s = false)
      (hat : w.At call t (.recv s len want)) : Turn w call
        { w with waiting := Function.update w.waiting t (some (.recv s len want)) } .quiet
  /-- A send is refused, or waits for room for its descriptors. -/
  | sendHalts {call : Call T F} (t : T) (s : Bool) (buf : List UInt8) (fds : List F)
      (q : Option (Pending F)) (r : Option (Except Errno ℕ)) (hopen : w.conn.closed s = false)
      (hat : w.At call t (.sendFds s buf fds)) (hq : q = none ∨ q = some (.sendFds s buf fds)) :
      Turn w call { w with waiting := Function.update w.waiting t q } (.sent s [] buf [] r)
  /-- A send begins, or runs on from byte `n`. -/
  | sends {call : Call T F} (t : T) (s : Bool) (buf : List UInt8) (queued : List F) (n : ℕ)
      (c' : Conn F) (e : SendEnd) (hopen : w.conn.closed s = false)
      (hat : (n = 0 ∧ w.At call t (.sendFds s buf queued)) ∨
        (queued = [] ∧ w.At call t (.sendRoom s buf n)))
      (hpos : n ≤ e.pos) (hwhy : e.Why (w.conn.peerGone s) buf.length)
      (hgone : w.conn.peerGone s = true → e.pos = n)
      (hsends : Sends s w.conn c' buf.length queued ((buf.drop n).take (e.pos - n))) :
      Turn w call { w with conn := c', waiting := Function.update w.waiting t (e.pending s buf) }
        (.sent s queued buf ((buf.drop n).take (e.pos - n)) e.result)
  /-- A receive at end `r` returns. -/
  | takes {call : Call T F} (t : T) (r : Bool) (len want : ℕ) (c' : Conn F) (bytes : List UInt8)
      (fds : List F) (hopen : w.conn.closed r = false) (hat : w.At call t (.recv r len want))
      (htakes : Takes (!r) w.conn c' want bytes fds) :
      Turn w call { w with conn := c', waiting := Function.update w.waiting t none }
        (.received r len want bytes fds)
  | closes (s : Bool) (hopen : w.conn.closed s = false) (hlast : w.conn.refs s ≤ 1)
      (hquiet : w.Quiet s) : Turn w (.unref s) { w with conn :=
        { refs := Function.update w.conn.refs s 0
          closed := Function.update w.conn.closed s true
          dir := fun t => (w.conn.dir t).dropQueuedFds } } .quiet

/-- The directions are in order, and blocked calls are on open ends. -/
structure World.Ok (w : World T F) : Prop where
  dir : ∀ s, (w.conn.dir s).Ok
  waiting : ∀ t q, w.waiting t = some q → w.conn.closed q.side = false

variable {w : World T F}

/-- A send from where it waits for room for its descriptors. -/
lemma turn_sendFds (hok : w.Ok) {t : T} {fds : List F} (hopen : w.conn.closed s = false)
    (hat : w.At call t (.sendFds s buf fds)) :
    Turn w call (w.ran t (w.conn.sendFds s buf fds)).1 (w.ran t (w.conn.sendFds s buf fds)).2 := by
  unfold Conn.sendFds
  have hcap := (hok.dir s).fds.count_le
  split
  next =>
    split
    · exact .sendHalts t s buf fds none _ hopen hat (.inl rfl)
    · exact .sendHalts t s buf fds _ _ hopen hat (.inr rfl)
  next hroom =>
    have hroom' : (w.conn.dir s).fds.count + fds.length ≤ sockFdCap := by omega
    obtain ⟨hq, -⟩ := Dir.queueFds_spec (hok.dir s) buf.length fds hroom'
    have hok' : ((w.conn.setDir s ((w.conn.dir s).queueFds buf.length fds)).dir s).Ok := by
      rwa [setDir_self]
    obtain ⟨c', e, heq, hpos, happ, hwhy, hgone⟩ := sendBytes_spec s buf hok' 0 fds
    rw [heq]
    exact .sends t s buf fds 0 c' e hopen (.inl ⟨rfl, hat⟩) hpos hwhy hgone
      (happ.sends_queued (hok.dir s) hroom')

/-- A receive, from the start or from where it waits. -/
lemma turn_socketRecv (hok : w.Ok) {t : T} {want : ℕ} (hopen : w.conn.closed s = false)
    (hat : w.At call t (.recv s len want)) :
    Turn w call (w.ran t (w.conn.socketRecv s len want)).1
      (w.ran t (w.conn.socketRecv s len want)).2 := by
  rcases socketRecv_spec s (hok.dir (!s)) len want with heq | ⟨c', bytes, fds, heq, htakes⟩
  · rw [heq]
    exact .recvWaits t s len want hopen hat
  · rw [heq]
    exact .takes t s len want c' bytes fds hopen hat htakes

/-- Every step is one of these. -/
theorem sockStep_turn {allowed : World T F → Call T F → Prop} {l : Call T F × Effect F}
    {w' : World T F} (hok : w.Ok) (h : sockStep allowed w l w') : Turn w l.1 w' l.2 := by
  obtain ⟨call, eff⟩ := l
  obtain ⟨⟨hallows, -⟩, hexec⟩ := h
  have hturn : Turn w call (w.exec call).1 (w.exec call).2 := by
    cases call with
    | send t s buf fds =>
      obtain ⟨hwait, hlive, hopen⟩ := hallows
      rw [World.exec, Conn.socketSend]
      split
      · exact .sendHalts t s buf fds none _ hopen (.sends hwait hlive) (.inl rfl)
      · exact turn_sendFds hok hopen (.sends hwait hlive)
    | recv t s len want =>
      obtain ⟨hwait, hlive, hopen⟩ := hallows
      exact turn_socketRecv hok hopen (.receives hwait hlive)
    | resume t =>
      rw [World.exec]
      cases hwait : w.waiting t with
      | none => exact .idle rfl rfl rfl rfl
      | some q =>
        have hopen := hok.waiting t q hwait
        cases q with
        | sendFds s buf fds => exact turn_sendFds hok hopen (.resumes hwait)
        | sendRoom s buf n =>
          obtain ⟨c', e, heq, hpos, happ, hwhy, hgone⟩ :=
            sendBytes_spec s buf (hok.dir s) n ([] : List F)
          dsimp only
          rw [heq]
          exact .sends t s buf [] n c' e hopen (.inr ⟨rfl, .resumes hwait⟩) hpos hwhy hgone
            (happ.sends _)
        | recv s len want => exact turn_socketRecv hok hopen (.resumes hwait)
    | kill t => exact .killed t
    | ref s => exact .idle rfl rfl rfl rfl
    | unref s =>
      rw [World.exec, Conn.socketUnref]
      split_ifs with hlast
      · exact .idle rfl rfl rfl rfl
      have hle := not_lt.mp hlast
      exact .closes s hallows.1 hle (hallows.2 hle)
  rw [hexec] at hturn
  exact hturn

/-- Blocked calls are on open ends, also after one thread has moved to another place. -/
lemma World.Ok.moved (h : w.Ok) (hdir : ∀ s, (c'.dir s).Ok) (hclosed : c'.closed = w.conn.closed)
    (t : T) (q : Option (Pending F)) (hq : ∀ r, q = some r → w.conn.closed r.side = false) :
    World.Ok { w with conn := c', waiting := update w.waiting t q } := by
  refine ⟨hdir, fun u r hr => ?_⟩
  change update w.waiting t q u = some r at hr
  rw [hclosed]
  by_cases hu : u = t
  · rw [hu, update_self] at hr
    exact hq r hr
  · rw [update_of_ne hu] at hr
    exact h.waiting u r hr

/-- Every turn leaves both directions in order. -/
lemma Turn.ok {e : Effect F} {w' : World T F} (h : Turn w call w' e) (hok : w.Ok) : w'.Ok := by
  -- the direction a step works on comes with its own fact, the other one is as before
  have hboth : ∀ {c' : Conn F} {s : Bool}, (c'.dir s).Ok → c'.dir (!s) = w.conn.dir (!s) →
      ∀ t, (c'.dir t).Ok := by
    intro c' s hs hother t
    rcases Bool.eq_or_eq_not t s with rfl | rfl
    · exact hs
    · rw [hother]
      exact hok.dir _
  cases h with
  | idle hdir hclosed hwaiting hgone =>
    refine ⟨fun s => ?_, fun t q hq => ?_⟩
    · rw [hdir]
      exact hok.dir s
    · rw [hclosed]
      rw [hwaiting] at hq
      exact hok.waiting t q hq
  | killed t =>
    exact ⟨hok.dir, (hok.moved hok.dir rfl t none fun r hr => by cases hr).waiting⟩
  | recvWaits t s len want hopen =>
    exact hok.moved hok.dir rfl t _ fun r hr => some.inj hr ▸ hopen
  | sendHalts t s buf fds q r hopen hat hq =>
    refine hok.moved hok.dir rfl t q fun r hr => ?_
    rcases hq with rfl | rfl
    · cases hr
    · exact some.inj hr ▸ hopen
  | sends t s buf queued n c' e hopen hat hpos hwhy hgone hsends =>
    refine hok.moved (hboth hsends.ok hsends.other) hsends.closed_eq t _ fun r hr => ?_
    obtain ⟨k, rfl, rfl⟩ := e.pending_eq_some hr
    exact hopen
  | takes t r len want c' bytes fds hopen hat htakes =>
    exact hok.moved (hboth htakes.ok htakes.other) htakes.closed_eq t none fun r hr => by cases hr
  | closes s hopen hlast hquiet =>
    refine ⟨fun t => (Dir.dropQueuedFds_spec (hok.dir t)).1, fun t q hq => ?_⟩
    -- nobody is inside a call on the end that closes
    exact (update_of_ne (hquiet t q hq) _ _).trans (hok.waiting t q hq)

omit [DecidableEq T] in
lemma World.ok_fresh [Inhabited F] : (World.fresh T F).Ok :=
  ⟨fun _ => Dir.ok_zero, fun _ _ hq => by cases hq⟩

end Turns

end Wos.Ipc
