import Mathlib.Data.List.Forall2
import Wos.Ipc.Streams

/-!
# Streams of bytes and descriptors

What travels over a direction of a connection, over whole runs of any number of threads. The
`Ledger` of a direction is read off what the steps show: the bytes accepted and received, the
descriptors queued, each with the message it was sent with, and the descriptors handed over, each
with the number of bytes the receiver had consumed. `Tracks` says how the direction stands to its
ledger, and `Talks` how the threads inside a send do.

Positions in the stream are kept in 64 bits, and a message that ends beyond them makes a descriptor
arrive too early. `PositionsFit` excludes that.

## Main definitions

* `Ledger`, `ledger`: what has travelled over a direction;
* `Tracks`, `Talks`: how the connection and its threads stand to the ledger;
* `Careful`: the steps that keep `Talks`.

## Main results

* `run_books`: every careful run keeps the books;
* `run_faithful`: bytes and descriptors arrive in order, and no descriptor before its message.
-/

namespace Wos.Ipc

open Function List Bool Nat

variable {T F : Type} [DecidableEq T]

/-! ## The ledger of a direction -/

/-- A message: where in the stream it starts, and what it says. -/
structure Msg where
  start : ℕ
  text : List UInt8

variable {stream : List UInt8} {m : Msg}

namespace Msg

/-- The position after the last byte. -/
def stop (m : Msg) : ℕ := m.start + m.text.length

/-- The stream holds the message at its place. -/
def Whole (stream : List UInt8) (m : Msg) : Prop :=
  ∃ front back, stream = front ++ m.text ++ back ∧ front.length = m.start

lemma Whole.append (h : m.Whole stream) (bs : List UInt8) : m.Whole (stream ++ bs) := by
  obtain ⟨front, back, rfl, hstart⟩ := h
  exact ⟨front, back ++ bs, append_assoc _ _ _, hstart⟩

lemma Whole.stop_le (h : m.Whole stream) : m.stop ≤ stream.length := by
  obtain ⟨front, back, rfl, hstart⟩ := h
  rw [length_append, length_append, hstart]
  exact le_add_right _ _

end Msg

/-- What has travelled over a direction. -/
structure Ledger (F : Type) where
  accepted : List UInt8
  received : List UInt8
  /-- The descriptors queued, with their messages. -/
  sent : List (F × Msg)
  /-- The descriptors handed over, with the number of bytes consumed by then. -/
  got : List (F × ℕ)

namespace Ledger

/-- Nothing has travelled. -/
def empty (F : Type) : Ledger F := ⟨[], [], [], []⟩

/-- The ledger of direction `s` after a step. -/
def add (s : Bool) (b : Ledger F) : Effect F → Ledger F
  | .sent s' queued msg accepted _ =>
    if s' = s then
      { b with
        accepted := b.accepted ++ accepted
        sent := b.sent ++ queued.map (·, ⟨b.accepted.length, msg⟩) }
    else b
  | .received r _ _ bytes fds =>
    if (!r) = s then
      { b with
        received := b.received ++ bytes
        got := b.got ++ fds.map (·, (b.received ++ bytes).length) }
    else b
  | .quiet => b

end Ledger

/-- What a sequence of steps has moved over direction `s`. -/
def ledger (s : Bool) (ls : List (Call T F × Effect F)) : Ledger F :=
  ls.foldl (fun b l => b.add s l.2) (.empty F)

omit [DecidableEq T] in
lemma ledger_concat (s : Bool) (ls : List (Call T F × Effect F)) (l : Call T F × Effect F) :
    ledger s (ls ++ [l]) = (ledger s ls).add s l.2 :=
  foldl_concat ..

/-! ## The connection and its ledger -/

/-- How a direction stands to its ledger. The descriptors sent are those handed over, those given up
when an end was closed, and those that wait. -/
structure Tracks (s : Bool) (c : Conn F) (b : Ledger F) : Prop where
  /-- What was accepted is what was received, and what waits in the buffer. -/
  stream : b.accepted = b.received ++ (c.dir s).bytes
  /-- The writer is at the end of what was accepted. -/
  written_eq : (c.dir s).written = b.accepted.length
  /-- The reader is at the end of what was received. -/
  read_eq : (c.dir s).read = b.received.length
  /-- The descriptors sent: handed over at the end of their messages or later, lost in a close, and
  waiting. -/
  fds : ∃ old lost now, b.sent = old ++ lost ++ now ∧
    (c.dir s).queue = now.map (fun x => (x.1, x.2.stop)) ∧
    List.Forall₂ (fun x y => x.1 = y.1 ∧ x.2.stop ≤ y.2) old b.got ∧
    (lost = [] ∨ (c.closed s = true ∧ now = []) ∨ c.closed (!s) = true)
  /-- No descriptor was handed over at a place that has not been read. -/
  got_le : ∀ y ∈ b.got, y.2 ≤ b.received.length

variable {queued fds : List F} {eff : Effect F}

namespace Tracks

variable {s : Bool} {c c' : Conn F} {b : Ledger F}

lemma congr (h : Tracks s c b) (hdir : c'.dir s = c.dir s) (hclosed : c'.closed = c.closed) :
    Tracks s c' b := by
  obtain ⟨hstream, hwritten, hread, hfds, hgot⟩ := h
  rw [← hdir] at hstream hwritten hread
  rw [← hdir, ← hclosed] at hfds
  exact ⟨hstream, hwritten, hread, hfds, hgot⟩

/-- A send on an open end. -/
lemma sends (h : Tracks s c b) {msg bs : List UInt8} (hopen : c.closed s = false)
    (hs : Sends s c c' msg.length queued bs) (hfit : b.accepted.length + bs.length < word64)
    (hend : queued = [] ∨ b.accepted.length + msg.length < word64)
    (r : Option (Except Errno ℕ)) : Tracks s c' (b.add s (.sent s queued msg bs r)) := by
  have hwritten : (c.dir s).written = b.accepted.length % word64 := by
    rw [h.written_eq, mod_eq_of_lt (by omega)]
  have hmarks : queued.map (·, ((c.dir s).written + msg.length) % word64) =
      (queued.map (·, Msg.mk b.accepted.length msg)).map fun x => (x.1, x.2.stop) := by
    rw [map_map]
    rcases hend with rfl | hend
    · rfl
    · rw [h.written_eq, mod_eq_of_lt hend]
      rfl
  obtain ⟨old, lost, now, hsent, hqueue, hgot, hlost⟩ := h.fds
  rw [Ledger.add, if_pos rfl]
  refine ⟨?_, ?_, ?_, ⟨old, lost, now ++ queued.map (·, ⟨b.accepted.length, msg⟩), ?_, ?_, hgot, ?_⟩,
    h.got_le⟩
  · rw [hs.bytes_eq, h.stream, append_assoc]
  · rw [hs.written _ hwritten, mod_eq_of_lt hfit, length_append]
  · rw [hs.read_eq, h.read_eq]
  · rw [hsent, append_assoc]
  · rw [hs.queue_eq, hqueue, hmarks, map_append]
  · rw [hs.closed_eq]
    -- the end is open, so nothing was given up by closing it
    exact hlost.imp_right fun hclosed => .inr (hclosed.resolve_left fun hs' =>
      false_ne_true (hopen.symm.trans hs'.1))

/-- A receive at an open end. -/
lemma takes {r : Bool} (h : Tracks (!r) c b) {len want : ℕ} {bytes : List UInt8}
    (hopen : c.closed r = false) (ht : Takes (!r) c c' want bytes fds)
    (hfit : b.accepted.length < word64) :
    Tracks (!r) c' (b.add (!r) (.received r len want bytes fds)) := by
  obtain ⟨old, lost, now, hsent, hqueue, hgot, hlost⟩ := h.fds
  obtain ⟨front, hfront, rfl, hpast, -⟩ := ht.taken
  have hstream : b.accepted = (b.received ++ bytes) ++ (c'.dir !r).bytes := by
    rw [h.stream, ht.bytes_eq, append_assoc]
  have hle : (b.received ++ bytes).length ≤ b.accepted.length :=
    List.IsPrefix.length_le ⟨_, hstream.symm⟩
  have hread : (c'.dir !r).read = (b.received ++ bytes).length := by
    have hlt := lt_of_le_of_lt hle hfit
    rw [length_append] at hlt ⊢
    rw [ht.read b.received.length (by rw [h.read_eq, mod_eq_of_lt (by omega)]), mod_eq_of_lt hlt]
  -- the descriptors handed over are the first of those that wait
  obtain ⟨first, rest, hnow, hfirst, hrest⟩ :
      ∃ first rest, now = first ++ rest ∧ front = first.map (fun x => (x.1, x.2.stop)) ∧
        (c'.dir !r).queue = rest.map fun x => (x.1, x.2.stop) := by
    obtain ⟨first, rest, hnow, hfirst, hrest⟩ := map_eq_append_iff.mp (hqueue.symm.trans hfront)
    exact ⟨first, rest, hnow, hfirst.symm, hrest.symm⟩
  have hnone : first = [] ∨ lost = [] := by
    rcases hlost with hlost | ⟨-, hnil⟩ | hclosed
    · exact .inr hlost
    · rw [hnil] at hnow
      exact .inl (append_eq_nil_iff.mp hnow.symm).1
    · rw [Bool.not_not, hopen] at hclosed
      exact absurd hclosed false_ne_true
  rw [Ledger.add, if_pos rfl]
  refine ⟨hstream, ?_, hread, ?_, ?_⟩
  · rw [ht.written_eq, h.written_eq]
  · refine ⟨old ++ first, lost, rest, ?_, hrest, ?_, ?_⟩
    · rw [hsent, hnow]
      rcases hnone with rfl | rfl <;> simp
    · refine rel_append hgot ?_
      rw [hfirst, map_map, map_map, forall₂_map_right_iff, forall₂_same]
      intro x hx
      refine ⟨rfl, ?_⟩
      rw [← hread]
      exact hpast (x.1, x.2.stop) (by rw [hfirst]; exact mem_map_of_mem hx)
    · rw [ht.closed_eq]
      refine hlost.imp_right (Or.imp_left fun hs => ⟨hs.1, ?_⟩)
      rw [hs.2] at hnow
      exact (append_eq_nil_iff.mp hnow.symm).2
  · intro y hy
    rcases mem_append.mp hy with hy | hy
    · refine (h.got_le y hy).trans ?_
      rw [length_append]
      exact le_add_right _ _
    · obtain ⟨f, -, rfl⟩ := mem_map.mp hy
      exact le_rfl

/-- An end is closed, and what waits in either direction is given up. -/
lemma closes (h : Tracks s c b) (hok : (c.dir s).Ok) (r : Bool) (refs : Bool → ℕ) :
    Tracks s { refs := refs, closed := update c.closed r true
               dir := fun t => (c.dir t).dropQueuedFds } b := by
  obtain ⟨old, lost, now, hsent, hqueue, hgot, hlost⟩ := h.fds
  refine ⟨h.stream, h.written_eq, h.read_eq, ⟨old, lost ++ now, [], ?_, ?_, hgot, .inr ?_⟩,
    h.got_le⟩
  · rw [hsent, append_nil, append_assoc]
  · exact (Dir.dropQueuedFds_spec hok).2
  · rcases eq_or_eq_not r s with rfl | rfl
    · exact .inl ⟨update_self .., rfl⟩
    · exact .inr (update_self ..)

end Tracks

/-! ## The threads inside a send -/

/-- A blocked send on end `s`. -/
def Pending.SendsOn (s : Bool) : Pending F → Prop
  | .sendFds s' _ _ => s' = s
  | .sendRoom s' _ _ => s' = s
  | .recv .. => False

/-- What is still to be written of a blocked send. -/
def Pending.rest : Pending F → ℕ
  | .sendFds _ buf _ => buf.length
  | .sendRoom _ buf n => buf.length - n
  | .recv .. => 0

/-- Nobody has blocked in a send on end `s`. -/
def World.Idle (w : World T F) (s : Bool) : Prop := ∀ t q, w.waiting t = some q → ¬ q.SendsOn s

/-- The sender `p` is no more. -/
def World.Stopped (w : World T F) (p : Option T) : Prop := ∃ t, p = some t ∧ w.gone t = true

/-- The message is being written by a blocked thread. -/
def World.Writing (w : World T F) (s : Bool) (stream : List UInt8) (m : Msg) : Prop :=
  ∃ t n front, w.waiting t = some (.sendRoom s m.text n) ∧ stream = front ++ m.text.take n ∧
    front.length = m.start

/-- How the threads inside a send on end `s` stand to the ledger. There is at most one. A message
that is not whole is being written, or will never be finished: its reader has closed, or its
sender `p` is no more. -/
structure Talks (p : Option T) (s : Bool) (w : World T F) (b : Ledger F) : Prop where
  /-- Positions have not wrapped around. -/
  fit : b.accepted.length < word64
  /-- A thread inside a send is the only one, its sender is not stopped, and its message ends in
  range. -/
  alone : ∀ t q, w.waiting t = some q → q.SendsOn s → ¬ w.Stopped p ∧
    b.accepted.length + q.rest < word64 ∧ ∀ u r, w.waiting u = some r → r.SendsOn s → u = t
  /-- Every message is whole, or is still written, or will never be finished. -/
  msgs : ∀ x ∈ b.sent, x.2.Whole b.accepted ∨ (b.accepted.length < x.2.stop ∧
    (w.conn.closed (!s) = true ∨ w.Stopped p ∨ w.Writing s b.accepted x.2))
  /-- Messages end in the order in which they were sent, as long as the reader is open. -/
  stops : w.conn.closed (!s) = true ∨ b.sent.Pairwise fun x y => x.2.stop ≤ y.2.stop

/-- The call starts no second send on end `s`, nor one after the sender `p` is no more, and the
message ends before the positions wrap around. Only `p` may be killed inside a send. -/
def Careful (p : Option T) (s : Bool) (w : World T F) : Call T F → Prop
  | .send _ s' buf _ =>
    s' = s → ¬ w.Stopped p ∧ w.Idle s ∧ (w.conn.dir s).written + buf.length < word64
  | .kill t => (∀ q, w.waiting t = some q → q.SendsOn s → p = some t) ∧
    (p = some t → ∀ u q, w.waiting u = some q → q.SendsOn s → u = t)
  | _ => True

variable {call : Call T F} {t : T} {w' : World T F} {q : Pending F}

namespace Talks

variable {p : Option T} {s : Bool} {w : World T F} {b : Ledger F}

omit [DecidableEq T] in
/-- Only the threads inside a send on end `s`, the ends and the killed threads matter. -/
lemma congr (h : Talks p s w b)
    (hwaiting : ∀ t q, q.SendsOn s → (w'.waiting t = some q ↔ w.waiting t = some q))
    (hclosed : w'.conn.closed = w.conn.closed) (hgone : w'.gone = w.gone) : Talks p s w' b := by
  have hstopped : w'.Stopped p ↔ w.Stopped p := by rw [World.Stopped, World.Stopped, hgone]
  refine ⟨h.fit, fun t q hq hs => ?_, fun x hx => ?_, ?_⟩
  · obtain ⟨hlive, hrest, halone⟩ := h.alone t q ((hwaiting t q hs).mp hq) hs
    exact ⟨fun hst => hlive (hstopped.mp hst), hrest,
      fun u r hr hs' => halone u r ((hwaiting u r hs').mp hr) hs'⟩
  · refine (h.msgs x hx).imp_right (And.imp_right ?_)
    rw [hclosed]
    refine Or.imp_right (Or.imp hstopped.mpr ?_)
    rintro ⟨t, n, front, hw, hrest⟩
    exact ⟨t, n, front, (hwaiting t (.sendRoom s x.2.text n) rfl).mpr hw, hrest⟩
  · rw [hclosed]
    exact h.stops

variable {c' : Conn F}

variable {n : ℕ} {q' : Option (Pending F)} {e : SendEnd}

/-- One thread moves between places that are not inside a send on end `s`. -/
lemma congr_update (h : Talks p s w b) (hat : w.At call t q) (hq : ¬ q.SendsOn s)
    (hq' : ∀ r, q' = some r → ¬ r.SendsOn s) (hclosed : c'.closed = w.conn.closed) :
    Talks p s { w with conn := c', waiting := update w.waiting t q' } b := by
  refine h.congr (fun u r hr => ?_) hclosed rfl
  change update w.waiting t q' u = some r ↔ _
  by_cases hu : u = t
  · subst hu
    rw [update_self]
    exact ⟨fun heq => absurd hr (hq' r heq), fun heq => absurd (hat.eq heq ▸ hr) hq⟩
  · rw [update_of_ne hu]

omit [DecidableEq T] in
/-- Who is about to send is the only one, and has room for the rest in the positions. -/
lemma enter (h : Talks p s w b) (hwritten : (w.conn.dir s).written = b.accepted.length)
    (hcareful : Careful p s w call) (hat : w.At call t q) (hq : q.SendsOn s) : ¬ w.Stopped p ∧
    b.accepted.length + q.rest < word64 ∧ ∀ u r, w.waiting u = some r → r.SendsOn s → u = t := by
  cases hat with
  | sends =>
    obtain ⟨hlive, hidle, hfit⟩ := hcareful hq
    rw [hwritten] at hfit
    exact ⟨hlive, hfit, fun u r hr hs => absurd hs (hidle u r hr)⟩
  | receives => exact hq.elim
  | resumes hwaiting => exact h.alone t q hwaiting hq

/-- The only thread inside a send has moved: it is still the only one. -/
lemma alone_moved (hlive : ¬ w.Stopped p)
    (halone : ∀ u r, w.waiting u = some r → r.SendsOn s → u = t)
    (hrest : ∀ r, q' = some r → n + r.rest < word64) (u : T) (r : Pending F)
    (hr : update w.waiting t q' u = some r) (hs : r.SendsOn s) : ¬ w.Stopped p ∧
    n + r.rest < word64 ∧ ∀ v r', update w.waiting t q' v = some r' → r'.SendsOn s → v = u := by
  have honly : ∀ u r, update w.waiting t q' u = some r → r.SendsOn s → u = t := by
    intro u r hr hs
    by_contra hu
    rw [update_of_ne hu] at hr
    exact hu (halone u r hr hs)
  obtain rfl := honly u r hr hs
  rw [update_self] at hr
  exact ⟨hlive, hrest r hr, honly⟩

variable {buf : List UInt8}

/-- A message written up to byte `n` is whole after the next stretch, or not yet, and then there is a
reason. -/
lemma settle {front : List UInt8} (c' : Conn F) (t : T) (hstream : stream = front ++ buf.take n)
    (hpos : n ≤ e.pos) (hwhy : e.Why (w.conn.peerGone s) buf.length) (htext : m.text = buf)
    (hstart : front.length = m.start) (hclosed : c'.closed = w.conn.closed) :
    let w' : World T F := ⟨c', update w.waiting t (e.pending s buf), w.gone⟩
    let stream' := stream ++ (buf.drop n).take (e.pos - n)
    m.Whole stream' ∨ (stream'.length < m.stop ∧
      (w'.conn.closed (!s) = true ∨ w'.Stopped p ∨ w'.Writing s stream' m)) := by
  intro w' stream'
  have hstream' : stream' = front ++ buf.take e.pos := by
    change stream ++ _ = _
    rw [hstream, append_assoc, ← take_add, Nat.add_sub_cancel' hpos]
  by_cases hall : buf.length ≤ e.pos
  · left
    refine ⟨front, [], ?_, hstart⟩
    rw [hstream', take_of_length_le hall, htext, append_nil]
  right
  refine ⟨?_, ?_⟩
  · rw [hstream', length_append, length_take, Msg.stop, htext, hstart]
    omega
  cases e with
  | finished k => exact absurd hwhy hall
  | broken k =>
    left
    rw [hclosed]
    exact hwhy
  | waiting k =>
    refine .inr (.inr ⟨t, k, front, ?_, ?_, hstart⟩)
    · rw [htext]
      exact update_self ..
    · rw [htext]
      exact hstream'

/-- A send by the only thread inside one. -/
lemma sends (h : Talks p s w b) (hwritten : (w.conn.dir s).written = b.accepted.length)
    (hcareful : Careful p s w call)
    (hat : (n = 0 ∧ w.At call t (.sendFds s buf queued)) ∨
      (queued = [] ∧ w.At call t (.sendRoom s buf n))) (hpos : n ≤ e.pos)
    (hwhy : e.Why (w.conn.peerGone s) buf.length) (hgone : w.conn.peerGone s = true → e.pos = n)
    (hclosed : c'.closed = w.conn.closed) (r : Option (Except Errno ℕ)) :
    Talks p s { w with conn := c', waiting := update w.waiting t (e.pending s buf) }
      (b.add s (.sent s queued buf ((buf.drop n).take (e.pos - n)) r)) := by
  obtain ⟨hlive, hrest, halone⟩ : ¬ w.Stopped p ∧ b.accepted.length + (buf.length - n) < word64 ∧
      ∀ u r, w.waiting u = some r → r.SendsOn s → u = t := by
    rcases hat with ⟨rfl, hat⟩ | ⟨-, hat⟩ <;> exact h.enter hwritten hcareful hat rfl
  have hlen : ((buf.drop n).take (e.pos - n)).length ≤ buf.length - n := by
    rw [length_take, length_drop]
    exact min_le_right _ _
  rw [Ledger.add, if_pos rfl]
  refine ⟨?_, alone_moved hlive halone fun q hq => ?_, fun x hx => ?_, ?_⟩
  · rw [length_append]
    omega
  · -- the thread that has sent is the only one that may have blocked
    obtain ⟨k, rfl, rfl⟩ := e.pending_eq_some hq
    have hk : k < buf.length := hwhy.1
    change n ≤ k at hpos
    change (b.accepted ++ (buf.drop n).take (k - n)).length + (buf.length - k) < word64
    rw [length_append, length_take, length_drop]
    omega
  · rcases mem_append.mp hx with hx | hx
    · rcases h.msgs x hx with hwhole | ⟨hlt, hcut | hstop | ⟨u, k, front, hu, hfront, hstart⟩⟩
      · exact .inl (hwhole.append _)
      · -- the reader has closed, so nothing more is written
        right
        rw [hgone hcut, Nat.sub_self, take_zero, append_nil]
        refine ⟨hlt, .inl ?_⟩
        rw [hclosed]
        exact hcut
      · exact absurd hstop hlive
      · -- the message that is being written is the one of this send
        obtain rfl := halone u _ hu rfl
        rcases hat with ⟨-, hat⟩ | ⟨-, hat⟩
        · cases hat.eq hu
        · obtain ⟨-, htext, rfl⟩ := Pending.sendRoom.inj (hat.eq hu)
          rw [htext] at hfront
          exact settle c' u hfront hpos hwhy htext hstart hclosed
    · -- a message that starts with this send
      obtain ⟨f, hf, rfl⟩ := mem_map.mp hx
      rcases hat with ⟨rfl, -⟩ | ⟨rfl, -⟩
      · refine settle c' t ?_ hpos hwhy rfl rfl hclosed
        rw [take_zero, append_nil]
      · cases hf
  · by_cases hcut : w.conn.closed (!s) = true
    · left
      rw [hclosed]
      exact hcut
    right
    refine pairwise_append.mpr ⟨h.stops.resolve_left hcut, ?_, fun x hx y hy => ?_⟩
    · refine List.Pairwise.map _ (fun _ _ _ => le_rfl) (pairwise_of_forall (R := fun _ _ => True) ?_)
      exact fun _ _ => trivial
    obtain ⟨f, hf, rfl⟩ := mem_map.mp hy
    -- every earlier message is whole
    rcases h.msgs x hx with hwhole | ⟨-, hcut' | hstop | ⟨u, k, front, hu, -⟩⟩
    · exact hwhole.stop_le.trans (le_add_right _ _)
    · exact absurd hcut' hcut
    · exact absurd hstop hlive
    obtain rfl := halone u _ hu rfl
    rcases hat with ⟨-, hat⟩ | ⟨rfl, -⟩
    · cases hat.eq hu
    · cases hf

/-- A send that writes nothing moves its thread at most from before its descriptors to there. -/
lemma halts {q : Option (Pending F)} (h : Talks p s w b)
    (hwritten : (w.conn.dir s).written = b.accepted.length) (hcareful : Careful p s w call)
    (hat : w.At call t (.sendFds s buf fds)) (hq : q = none ∨ q = some (.sendFds s buf fds)) :
    Talks p s { w with waiting := update w.waiting t q } b := by
  obtain ⟨hlive, hrest, halone⟩ := h.enter hwritten hcareful hat rfl
  refine ⟨h.fit, alone_moved hlive halone fun r hr => ?_, fun x hx => ?_, h.stops⟩
  · rcases hq with rfl | rfl
    · cases hr
    · exact Option.some.inj hr ▸ hrest
  · refine (h.msgs x hx).imp_right (And.imp_right (Or.imp_right (Or.imp_right ?_)))
    rintro ⟨u, k, front, hu, -⟩
    obtain rfl := halone u _ hu rfl
    cases hat.eq hu

/-- A thread is killed. -/
lemma killed (h : Talks p s w b) (hcareful : Careful p s w (.kill t)) :
    Talks p s { w with
      waiting := update w.waiting t none
      gone := update w.gone t true } b := by
  obtain ⟨hmine, honly⟩ := hcareful
  have hother : ∀ u r, update w.waiting t none u = some r → u ≠ t ∧ w.waiting u = some r := by
    intro u r hr
    have hu : u ≠ t := by
      rintro rfl
      rw [update_self] at hr
      cases hr
    rw [update_of_ne hu] at hr
    exact ⟨hu, hr⟩
  have hgone : ∀ v, update w.gone t true v = true ↔ v = t ∨ w.gone v = true := fun v => by
    by_cases hv : v = t <;> simp [hv]
  refine ⟨h.fit, fun u r hr hs => ?_, fun x hx => ?_, h.stops⟩
  · obtain ⟨hu, hr'⟩ := hother u r hr
    obtain ⟨hlive, hrest, halone⟩ := h.alone u r hr' hs
    refine ⟨?_, hrest, fun v q hq hs' => halone v q (hother v q hq).2 hs'⟩
    rintro ⟨v, hv, hv'⟩
    rcases (hgone v).mp hv' with rfl | hv'
    · exact hu (honly hv u r hr' hs)
    · exact hlive ⟨v, hv, hv'⟩
  · refine (h.msgs x hx).imp_right (And.imp_right (Or.imp_right ?_))
    rintro (⟨v, hv, hv'⟩ | ⟨u, k, front, hu, hrest⟩)
    · exact .inl ⟨v, hv, (hgone v).mpr (.inr hv')⟩
    by_cases hut : u = t
    · -- the message is cut off, and it was that of `p`
      subst hut
      exact .inl ⟨u, hmine _ hu rfl, update_self ..⟩
    · exact .inr ⟨u, k, front, (update_of_ne hut _ _).trans hu, hrest⟩

omit [DecidableEq T] in
/-- Closing an end starts and ends no send. -/
lemma closes (h : Talks p s w b) (hclosed : ∀ r, w.conn.closed r = true → c'.closed r = true) :
    Talks p s { w with conn := c' } b :=
  ⟨h.fit, h.alone, fun x hx => (h.msgs x hx).imp_right (And.imp_right (Or.imp_left (hclosed _))),
    h.stops.imp_left (hclosed _)⟩

end Talks

/-! ## Runs -/

/-- The books of direction `s` are in order. -/
structure Books (p : Option T) (s : Bool) (w : World T F) (b : Ledger F) : Prop where
  tracks : Tracks s w.conn b
  talks : Talks p s w b

omit [DecidableEq T] in
lemma books_fresh [Inhabited F] (p : Option T) (s : Bool) :
    Books p s (World.fresh T F) (.empty F) where
  tracks := ⟨rfl, rfl, rfl, ⟨[], [], [], rfl, rfl, .nil, .inl rfl⟩,
    fun y hy => absurd hy not_mem_nil⟩
  talks := ⟨(by decide : 0 < word64), fun t q hq => absurd hq.symm (Option.some_ne_none q),
    fun x hx => absurd hx not_mem_nil, .inr .nil⟩

variable {s : Bool} {w : World T F}

/-- Every careful step keeps the books. -/
lemma Turn.books {p : Option T} {b : Ledger F} (h : Turn w call w' eff) (hok : w.Ok)
    (hcareful : Careful p s w call) (hb : Books p s w b) : Books p s w' (b.add s eff) := by
  obtain ⟨htracks, htalks⟩ := hb
  cases h with
  | idle hdir hclosed hwaiting hgone =>
    refine ⟨htracks.congr (by rw [hdir]) hclosed, htalks.congr (fun t q _ => ?_) hclosed hgone⟩
    rw [hwaiting]
  | killed t => exact ⟨htracks, htalks.killed hcareful⟩
  | recvWaits t r len want hopen hat =>
    exact ⟨htracks, htalks.congr_update hat id (fun q hq => Option.some.inj hq ▸ id) rfl⟩
  | sendHalts t s' buf fds q r hopen hat hq =>
    by_cases hs : s' = s
    · subst hs
      have hsame : b.add s' (.sent s' [] buf [] r) = b := by
        rw [Ledger.add, if_pos rfl, map_nil, append_nil, append_nil]
      rw [hsame]
      exact ⟨htracks, htalks.halts htracks.written_eq hcareful hat hq⟩
    · rw [Ledger.add, if_neg hs]
      refine ⟨htracks, htalks.congr_update hat hs (fun q' hq' => ?_) rfl⟩
      rcases hq with rfl | rfl
      · cases hq'
      · exact Option.some.inj hq' ▸ hs
  | sends t s' buf queued n c' e hopen hat hpos hwhy hgone hsends =>
    -- what is sent the other way leaves this ledger alone
    by_cases hs : s' = s
    · subst hs
      refine ⟨?_, htalks.sends htracks.written_eq hcareful hat hpos hwhy hgone hsends.closed_eq _⟩
      have hafter := htalks.sends htracks.written_eq hcareful hat hpos hwhy hgone hsends.closed_eq
        e.result
      have hfit := hafter.fit
      rw [Ledger.add, if_pos rfl, length_append] at hfit
      refine htracks.sends hopen hsends hfit ?_ _
      rcases hat with ⟨-, hat⟩ | ⟨hnone, -⟩
      · exact .inr (htalks.enter htracks.written_eq hcareful hat rfl).2.1
      · exact .inl hnone
    · rw [Ledger.add, if_neg hs]
      have hs' : s = !s' := eq_not_of_ne (Ne.symm hs)
      refine ⟨htracks.congr (hs' ▸ hsends.other) hsends.closed_eq, ?_⟩
      have hpending : ∀ r, e.pending s' buf = some r → ¬ Pending.SendsOn (F := F) s r := by
        intro r hr
        obtain ⟨k, rfl, rfl⟩ := e.pending_eq_some hr
        exact hs
      rcases hat with ⟨-, hat⟩ | ⟨-, hat⟩ <;>
        exact htalks.congr_update hat hs hpending hsends.closed_eq
  | takes t r len want c' bytes fds hopen hat htakes =>
    have hthreads : Talks p s { w with conn := c', waiting := update w.waiting t none } b :=
      htalks.congr_update hat id (fun q hq => by cases hq) htakes.closed_eq
    by_cases hr : (!r) = s
    · subst hr
      refine ⟨htracks.takes hopen htakes htalks.fit, ?_⟩
      rw [Ledger.add, if_pos rfl]
      exact { hthreads with }
    · rw [Ledger.add, if_neg hr]
      have hs : s = !!r := eq_not_of_ne (Ne.symm hr)
      exact ⟨htracks.congr (hs ▸ htakes.other) htakes.closed_eq, hthreads⟩
  | closes r hopen hlast hquiet =>
    refine ⟨htracks.closes (hok.dir s) r _, htalks.closes fun r' hr' => ?_⟩
    by_cases hr : r' = r
    · rw [hr]
      exact update_self ..
    · exact (update_of_ne hr _ _).trans hr'

/-- Every run of careful steps keeps the books. The steps may also keep `inv`, and be careful only
because of it. -/
theorem run_books [Inhabited F] {allowed : World T F → Call T F → Prop}
    (inv : World T F → List (Call T F × Effect F) → Prop) (p : Option T) (s : Bool)
    (hfresh : inv (World.fresh T F) [])
    (hinv : ∀ w ls call w' eff, inv w ls → w.Ok → allowed w call → Turn w call w' eff →
      inv w' (ls ++ [(call, eff)]))
    (hcareful : ∀ w ls call, inv w ls → allowed w call → w.Allows call → Careful p s w call)
    {ls : List (Call T F × Effect F)} (h : Run (sockStep allowed) (World.fresh T F) ls w) :
    w.Ok ∧ inv w ls ∧ Books p s w (ledger s ls) := by
  refine Run.history (P := fun w ls => w.Ok ∧ inv w ls ∧ Books p s w (ledger s ls))
    (fun w ls l w' hw hstep => ?_) [] h ⟨World.ok_fresh, hfresh, books_fresh p s⟩
  obtain ⟨hok, hi, hb⟩ := hw
  have hturn := sockStep_turn hok hstep
  rw [ledger_concat]
  exact ⟨hturn.ok hok, hinv _ _ _ _ _ hi hok hstep.1.2 hturn,
    hturn.books hok (hcareful _ _ _ hi hstep.1.2 hstep.1.1) hb⟩

/-! ## Faithful streams -/

/-- Messages are sent over direction `s` by the thread `p s` only. -/
def OneSender (p : Bool → T) : Call T F → Prop
  | .send t s _ _ => t = p s
  | _ => True

/-- The message ends at a position that 64 bits can hold. -/
def PositionsFit (w : World T F) : Call T F → Prop
  | .send _ s buf _ => (w.conn.dir s).written + buf.length < word64
  | _ => True

/-- Bytes are received in the order in which they were accepted, and descriptors handed over in the
order in which they were sent, each not before the last byte of its message was consumed. -/
def Ledger.Faithful (b : Ledger F) : Prop :=
  b.received <+: b.accepted ∧ b.got.map Prod.fst <+: b.sent.map Prod.fst ∧
    ∀ (k : ℕ) (x : F × Msg) (y : F × ℕ), b.sent[k]? = some x → b.got[k]? = some y →
      x.2.Whole b.accepted ∧ x.2.stop ≤ y.2

omit [DecidableEq T] in
/-- Books in order are faithful. -/
lemma Books.faithful {p : Option T} {b : Ledger F} (h : Books p s w b) : b.Faithful := by
  obtain ⟨old, lost, now, hsent, -, hgot, -⟩ := h.tracks.fds
  refine ⟨⟨_, h.tracks.stream.symm⟩, ?_, fun k x y hx hy => ?_⟩
  · have hfst : old.map Prod.fst = b.got.map Prod.fst := by
      rw [← forall₂_eq_eq_eq, forall₂_map_left_iff, forall₂_map_right_iff]
      exact hgot.imp fun _ _ h => h.1
    rw [← hfst, hsent, append_assoc, map_append]
    exact prefix_append _ _
  · have hk : k < old.length := by
      rw [hgot.length_eq]
      exact (List.getElem?_eq_some_iff.mp hy).1
    have hx' : old[k]? = some x := by
      rw [hsent, append_assoc, getElem?_append_left hk] at hx
      exact hx
    obtain ⟨hkx, rfl⟩ := List.getElem?_eq_some_iff.mp hx'
    obtain ⟨hky, rfl⟩ := List.getElem?_eq_some_iff.mp hy
    have hle := (hgot.get hkx hky).2
    refine ⟨(h.talks.msgs _ (mem_of_getElem? hx)).resolve_right fun hcut => ?_, hle⟩
    -- what the receiver has consumed was accepted
    have hconsumed := h.tracks.got_le _ (mem_of_getElem? hy)
    have hprefix : b.received.length ≤ b.accepted.length :=
      List.IsPrefix.length_le ⟨_, h.tracks.stream.symm⟩
    exact not_lt.mpr ((hle.trans hconsumed).trans hprefix) hcut.1

/-- Whoever has blocked in a send over a direction is its sender. -/
def Mine (p : Bool → T) (w : World T F) : Prop :=
  ∀ s t q, w.waiting t = some q → q.SendsOn s → t = p s

section OneSender

variable {p : Bool → T} {w : World T F}

omit [DecidableEq T] in
lemma World.At.mine (hat : w.At call t q) (hone : OneSender p call) (hmine : Mine p w)
    (hq : q.SendsOn s) : t = p s := by
  cases hat with
  | sends => exact hq ▸ hone
  | receives => exact hq.elim
  | resumes hwaiting => exact hmine s t q hwaiting hq

lemma Mine.moved (h : Mine p w) (t : T) (q : Option (Pending F))
    (hq : ∀ r s, q = some r → r.SendsOn s → t = p s) (c' : Conn F) (gone : T → Bool) :
    Mine p ⟨c', update w.waiting t q, gone⟩ := by
  intro s u r hr hs
  change update w.waiting t q u = some r at hr
  by_cases hu : u = t
  · subst hu
    rw [update_self] at hr
    exact hq r s hr hs
  · rw [update_of_ne hu] at hr
    exact h s u r hr hs

/-- Only the one sender is ever inside a send. -/
lemma Turn.mine (h : Turn w call w' eff) (hone : OneSender p call)
    (hmine : Mine p w) : Mine p w' := by
  cases h with
  | idle _ _ hwaiting _ =>
    intro s t q hq
    rw [hwaiting] at hq
    exact hmine s t q hq
  | killed t | takes t => exact hmine.moved t none (fun r s hr => by cases hr) _ _
  | recvWaits t =>
    exact hmine.moved t _ (fun r s hr hs => by obtain rfl := Option.some.inj hr; exact hs.elim) _ _
  | sendHalts t s buf fds q _ _ hat hq =>
    refine hmine.moved t q (fun r s hr hs => ?_) _ _
    rcases hq with rfl | rfl
    · cases hr
    · exact hat.mine hone hmine (Option.some.inj hr ▸ hs)
  | sends t s buf queued n c' e _ hat =>
    refine hmine.moved t _ (fun r s' hr hs => ?_) _ _
    obtain ⟨k, rfl, rfl⟩ := e.pending_eq_some hr
    rcases hat with ⟨-, hat⟩ | ⟨-, hat⟩ <;> exact hat.mine hone hmine hs
  | closes => exact hmine

omit [DecidableEq T] in
/-- The only sender of a direction is careful. -/
lemma careful_of_oneSender (s : Bool) (hmine : Mine p w) (hone : OneSender p call)
    (hfit : PositionsFit w call) (hallows : w.Allows call) :
    Careful (some (p s)) s w call := by
  cases call with
  | send t s' buf fds =>
    rintro rfl
    obtain ⟨hwaiting, hlive, -⟩ := hallows
    obtain rfl : t = p s' := hone
    refine ⟨?_, fun u q hq hs => ?_, hfit⟩
    · rintro ⟨u, hu, hgone⟩
      obtain rfl := Option.some.inj hu
      exact false_ne_true (hlive.symm.trans hgone)
    · obtain rfl := hmine s' u q hq hs
      exact Option.some_ne_none q (hq.symm.trans hwaiting)
  | kill t =>
    refine ⟨fun q hq hs => congrArg some (hmine s t q hq hs).symm, fun ht u q hq hs => ?_⟩
    exact (hmine s u q hq hs).trans (Option.some.inj ht)
  | _ => trivial

end OneSender

/-- With one sender in each direction, and messages that end before position `2 ^ 64`, streams are
faithful: any number of threads may receive, be killed, and close the ends. -/
theorem run_faithful [Inhabited F] (p : Bool → T) {ls : List (Call T F × Effect F)} {w : World T F}
    (h : Run (sockStep fun w call => OneSender p call ∧ PositionsFit w call) (World.fresh T F) ls w)
    (s : Bool) : (ledger s ls).Faithful := by
  have hbooks := run_books (fun w _ => Mine p w) (some (p s)) s
    (fun s t q hq => absurd hq.symm (Option.some_ne_none q))
    (fun _ _ _ _ _ hmine _ hallowed hturn => hturn.mine hallowed.1 hmine)
    (fun _ _ _ hmine hallowed hallows =>
      careful_of_oneSender s hmine hallowed.1 hallowed.2 hallows) h
  exact hbooks.2.2.faithful

theorem run_faithful_sample :
    let ls := labels World.exec (World.fresh Bool ℕ)
      [.send false false [1, 2] [5], .recv true true 1 1, .recv true true 4 1]
    (ledger false ls).Faithful ∧ (ledger false ls).got = [(5, 2)] := by
  have hlegal : Legal (fun w call => w.Allows call ∧ OneSender id call ∧ PositionsFit w call)
      World.exec (World.fresh Bool ℕ)
      [.send false false [1, 2] [5], .recv true true 1 1, .recv true true 4 1] :=
    ⟨⟨⟨rfl, rfl, rfl⟩, rfl, (by decide : 0 + 2 < word64)⟩, ⟨⟨rfl, rfl, rfl⟩, trivial, trivial⟩,
      ⟨⟨rfl, rfl, rfl⟩, trivial, trivial⟩, trivial⟩
  exact ⟨run_faithful id hlegal.run false, rfl⟩

/-! ## Positions that wrap around -/

/-- Everything sent over direction `false` has arrived: `n` bytes and no descriptor. -/
structure World.Level (w : World Unit ℕ) (n : ℕ) : Prop where
  waiting : w.waiting = fun _ => none
  gone : w.gone = fun _ => false
  closed : w.conn.closed = fun _ => false
  count : (w.conn.dir false).buf.count = 0
  fds : (w.conn.dir false).fds = .empty (0, 0)
  written : (w.conn.dir false).written = n % word64
  read : (w.conn.dir false).read = n % word64

namespace World.Level

variable {w : World Unit ℕ} {n : ℕ} (h : w.Level n)

include h

/-- One byte is sent and received. -/
lemma round : ∃ w' x, Run (sockStep fun _ call => OneSender (fun _ => ()) call) w
      [(.send () false [0] [], .sent false [] [0] [0] (some (.ok 1))),
        (.recv () true 1 0, .received true 1 0 [x] [])] w' ∧ w'.Level (n + 1) := by
  obtain ⟨hwaiting, hgone, hclosed, hcount, hfds, hwritten, hread⟩ := h
  let d := (w.conn.dir false).put 0
  have hsend : w.exec (.send () false [0] []) =
      ({ w with conn := w.conn.setDir false d }, .sent false [] [0] [0] (some (.ok 1))) := by
    simp [d, World.exec, World.ran, Conn.socketSend, Conn.sendFds, Conn.sendBytes, Conn.sendLoop,
      Dir.queueFds, Dir.fill, Conn.peerGone, Conn.setDir, hwaiting, hclosed, hcount, sockCap]
  have hput : d.buf.count = 1 := by simp [d, Dir.put, Ring.push, hcount]
  have hrecv : World.exec { w with conn := w.conn.setDir false d } (.recv () true 1 0) =
      ({ w with conn := w.conn.setDir false d.get }, .received true 1 0 [d.buf.front] []) := by
    simp [World.exec, World.ran, Conn.socketRecv, Conn.peerGone, Conn.setDir, hwaiting, hput,
      Dir.drain, Dir.handOver]
  refine ⟨_, d.buf.front, .cons ⟨⟨?_, rfl⟩, hsend⟩ (.cons ⟨⟨?_, trivial⟩, hrecv⟩ (.nil _)), ?_⟩
  · simp [World.Allows, hwaiting, hgone, hclosed]
  · simp [World.Allows, hwaiting, hgone, hclosed, Conn.setDir]
  refine ⟨hwaiting, hgone, hclosed, ?_, ?_, ?_, ?_⟩ <;> simp only [Conn.setDir_self]
  · simp [Dir.get, Ring.pop, hput]
  · exact hfds
  · change ((w.conn.dir false).written + 1) % word64 = _
    rw [hwritten, mod_add_mod]
  · change ((w.conn.dir false).read + 1) % word64 = _
    rw [hread, mod_add_mod]

/-- A message that ends past position `2 ^ 64` has its descriptor handed over with its first byte. -/
lemma early (hn : n = word64 - 2) :
    ∃ w' x, Run (sockStep fun _ call => OneSender (fun _ => ()) call) w
      [(.send () false [0, 0, 0] [5], .sent false [5] [0, 0, 0] [0, 0, 0] (some (.ok 3))),
        (.recv () true 1 1, .received true 1 1 [x] [5])] w' := by
  obtain ⟨hwaiting, hgone, hclosed, hcount, hfds, hwritten, hread⟩ := h
  let q := (Ring.empty (0, 0)).push sockFdCap (5, 1)
  let d := (({ w.conn.dir false with fds := q }.put 0).put 0).put 0
  have hstop : ((w.conn.dir false).written + 3) % word64 = 1 := by
    rw [hwritten, hn]
    decide
  have hsend : w.exec (.send () false [0, 0, 0] [5]) =
      ({ w with conn := w.conn.setDir false d },
        .sent false [5] [0, 0, 0] [0, 0, 0] (some (.ok 3))) := by
    simp [d, q, World.exec, World.ran, Conn.socketSend, Conn.sendFds, Conn.sendBytes, Conn.sendLoop,
      Dir.queueFds, Dir.fill, Dir.put, Ring.push, Ring.empty, Conn.peerGone, Conn.setDir, hwaiting,
      hclosed, hcount, hfds, hstop, sockCap, sockFdCap]
  have hput : d.buf.count = 3 := by simp [d, Dir.put, Ring.push, hcount]
  have hpast : d.get.fds.front.2 ≤ d.get.read := by
    change 1 ≤ ((w.conn.dir false).read + 1) % word64
    rw [hread, hn]
    decide
  have hqueue : d.get.fds.count = 1 ∧ d.get.fds.front.1 = 5 := ⟨rfl, rfl⟩
  have hrecv : World.exec { w with conn := w.conn.setDir false d } (.recv () true 1 1) =
      ({ w with conn := w.conn.setDir false { d.get with fds := d.get.fds.pop sockFdCap } },
        .received true 1 1 [d.buf.front] [5]) := by
    simp [World.exec, World.ran, Conn.socketRecv, Conn.peerGone, Conn.setDir, hwaiting, hput,
      Dir.drain, Dir.handOver, hpast, hqueue]
  refine ⟨_, d.buf.front, .cons ⟨⟨?_, rfl⟩, hsend⟩ (.cons ⟨⟨?_, trivial⟩, hrecv⟩ (.nil _))⟩
  · simp [World.Allows, hwaiting, hgone, hclosed]
  · simp [World.Allows, hwaiting, hgone, hclosed, Conn.setDir]

end World.Level

/-- Any number of bytes can be sent and received, one at a time. -/
lemma exists_level (n : ℕ) : ∃ ls w,
    Run (sockStep fun _ call => OneSender (fun _ => ()) call) (World.fresh Unit ℕ) ls w ∧
      w.Level n ∧ (ledger false ls).accepted.length = n ∧ (ledger false ls).received.length = n ∧
      (ledger false ls).sent = [] ∧ (ledger false ls).got = [] := by
  induction n with
  | zero => exact ⟨[], _, .nil _, ⟨rfl, rfl, rfl, rfl, rfl, rfl, rfl⟩, rfl, rfl, rfl, rfl⟩
  | succ n ih =>
    obtain ⟨ls, w, hrun, hlevel, haccepted, hreceived, hsent, hgot⟩ := ih
    obtain ⟨w', x, hround, hlevel'⟩ := hlevel.round
    refine ⟨_, w', hrun.trans hround, hlevel', ?_⟩
    rw [append_cons, ledger_concat, ledger_concat]
    simp [Ledger.add, haccepted, hreceived, hsent, hgot]

/-- Without the bound on positions, a descriptor arrives before its message. -/
theorem not_faithful_of_wrap : ¬ ∀ (ls : List (Call Unit ℕ × Effect ℕ)) (w : World Unit ℕ),
    Run (sockStep fun _ call => OneSender (fun _ => ()) call) (World.fresh Unit ℕ) ls w →
      (ledger false ls).Faithful := by
  intro hall
  obtain ⟨ls, w, hrun, hlevel, haccepted, hreceived, hsent, hgot⟩ := exists_level (word64 - 2)
  obtain ⟨w', x, hearly⟩ := hlevel.early rfl
  have hfaithful := hall _ w' (hrun.trans hearly)
  rw [append_cons, ledger_concat, ledger_concat] at hfaithful
  have hle := (hfaithful.2.2 0 (5, ⟨word64 - 2, [0, 0, 0]⟩) (5, word64 - 2 + 1)
    (by simp [Ledger.add, hsent, haccepted]) (by simp [Ledger.add, hgot, hreceived])).2
  exact absurd hle (by decide)

end Wos.Ipc
