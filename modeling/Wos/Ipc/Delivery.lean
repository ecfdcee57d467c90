import Wos.Ipc.Faithful

/-!
# Descriptors that are lost, and receives that return nothing

A descriptor is to be handed over to whoever reads past the message it was sent with. It is not when
the sender has closed its end in between, as `socket_unref` gives up what waits in both directions;
when two sends on one end overlap, as the descriptors are queued in the order in which the sends
started but their bytes may be written in another; and when a send was cut off by killing its
thread, as its descriptors then block all later ones. `Orderly` excludes these steps, and then every
descriptor is delivered.

A receive that returns no bytes and no descriptors is to mean that the peer has closed. It is also
what a receive returns that finds a descriptor queued, no bytes buffered, and the rest of the
message not yet written, or that asks for no descriptors: `Starved`.

## Main definitions

* `Orderly`: the steps that lose no descriptor;
* `Ledger.Delivered`: whoever has read past a message has its descriptors;
* `Starved`: when a receive returns nothing although the peer is open.

## Main results

* `run_delivered`: after orderly steps, a receive that asks for enough gets every descriptor;
* `received_nothing_iff`: a receive that returns nothing means a closed peer unless it is starved.
-/

namespace Wos.Ipc

open Function List Bool Nat

variable {T F : Type} [DecidableEq T]

/-! ## Delivery -/

/-- The call neither starts a second send on end `s`, nor cuts one off, nor closes the end while
descriptors wait to be read by an open peer; and messages end before the positions wrap around. -/
def Orderly (s : Bool) (w : World T F) : Call T F → Prop
  | .send _ s' buf _ => s' = s → w.Idle s ∧ (w.conn.dir s).written + buf.length < word64
  | .kill t => ∀ q, w.waiting t = some q → ¬ q.SendsOn s
  | .unref s' => s' = s → w.conn.refs s ≤ 1 →
    (w.conn.dir s).fds.count = 0 ∨ w.conn.closed (!s) = true
  | _ => True

/-- Who has read past a message has been handed the descriptors sent with it, in order. -/
def Ledger.Delivered (b : Ledger F) : Prop :=
  ∀ (k : ℕ) (x : F × Msg), b.sent[k]? = some x → x.2.stop ≤ b.received.length →
    ∃ consumed, b.got[k]? = some (x.1, consumed)

/-- Every descriptor sent was handed over or still waits, unless the reader has closed. -/
def Kept (s : Bool) (c : Conn F) (b : Ledger F) : Prop :=
  c.closed (!s) = true ∨ b.sent.length = b.got.length + (c.dir s).queue.length

namespace Ledger

variable (b : Ledger F) (r : Bool) (len want : ℕ) (bytes : List UInt8) (fds : List F)

lemma sent_received : (b.add (!r) (.received r len want bytes fds)).sent = b.sent := by
  rw [add, if_pos rfl]

lemma length_got_received :
    (b.add (!r) (.received r len want bytes fds)).got.length = b.got.length + fds.length := by
  rw [add, if_pos rfl]
  rw [length_append, length_map]

lemma length_received : (b.add (!r) (.received r len want bytes fds)).received.length =
    b.received.length + bytes.length := by
  rw [add, if_pos rfl]
  rw [length_append]

end Ledger

variable {call : Call T F} {c : Conn F}

section Kept

variable {s : Bool} {w w' : World T F} {b : Ledger F}

omit [DecidableEq T] in
lemma careful_of_orderly (h : Orderly s w call) : Careful none s w call := by
  cases call with
  | send t s' buf fds =>
    exact fun hs => ⟨fun ⟨t, ht, _⟩ => Option.some_ne_none t ht.symm, h hs⟩
  | kill t =>
    exact ⟨fun q hq hs => absurd hs (h q hq), fun ht => absurd ht.symm (Option.some_ne_none t)⟩
  | _ => trivial

omit [DecidableEq T] in
lemma Kept.congr {c' : Conn F} (h : Kept s c b) (hdir : c'.dir s = c.dir s)
    (hclosed : c'.closed = c.closed) : Kept s c' b := by
  rw [Kept, hdir, hclosed]
  exact h

/-- Orderly steps lose no descriptor. -/
lemma Turn.kept {eff : Effect F} (h : Turn w call w' eff) (hok : w.Ok)
    (horderly : Orderly s w call) (hkept : Kept s w.conn b) : Kept s w'.conn (b.add s eff) := by
  cases h with
  | idle hdir hclosed => exact hkept.congr (by rw [hdir]) hclosed
  | killed t => exact hkept
  | recvWaits => exact hkept
  | sendHalts t s' =>
    by_cases hs : s' = s
    · rw [Ledger.add, if_pos hs]
      simpa [Kept] using hkept
    · rw [Ledger.add, if_neg hs]
      exact hkept
  | sends t s' buf queued n c' e hopen hat hpos hwhy hgone hsends =>
    by_cases hs : s' = s
    · subst hs
      rw [Ledger.add, if_pos rfl]
      refine hkept.imp (fun hcut => hsends.closed_eq ▸ hcut) fun hlen => ?_
      rw [hsends.queue_eq, length_append, length_append, hlen, length_map, length_map, add_assoc]
    · rw [Ledger.add, if_neg hs]
      have hs' : s = !s' := eq_not_of_ne (Ne.symm hs)
      exact hkept.congr (hs' ▸ hsends.other) hsends.closed_eq
  | takes t r len want c' bytes fds hopen hat htakes =>
    by_cases hr : (!r) = s
    · subst hr
      refine hkept.imp (fun hcut => htakes.closed_eq ▸ hcut) fun hlen => ?_
      obtain ⟨got, hqueue, rfl, -⟩ := htakes.taken
      rw [hqueue, length_append] at hlen
      rw [Ledger.sent_received, Ledger.length_got_received, length_map, hlen, add_assoc]
    · rw [Ledger.add, if_neg hr]
      have hs : s = !!r := eq_not_of_ne (Ne.symm hr)
      exact hkept.congr (hs ▸ htakes.other) htakes.closed_eq
  | closes r hopen hlast hquiet =>
    have hmono : w.conn.closed (!s) = true → update w.conn.closed r true (!s) = true := by
      intro hcut
      by_cases hr : (!s) = r
      · rw [hr]
        exact update_self ..
      · exact (update_of_ne hr _ _).trans hcut
    rcases eq_or_eq_not r s with rfl | rfl
    · rcases horderly rfl hlast with hnone | hcut
      · refine hkept.imp hmono fun hlen => ?_
        have hempty : (w.conn.dir r).queue = [] := Ring.contents_eq_nil_iff.mpr hnone
        rw [hempty] at hlen
        rw [show (b.add r .quiet) = b from rfl, (Dir.dropQueuedFds_spec (hok.dir r)).2]
        exact hlen
      · exact .inl (hmono hcut)
    · exact .inl (update_self ..)

end Kept

omit [DecidableEq T] in
/-- What the receive that has just returned was not handed has not been read past. -/
lemma Books.delivered {r : Bool} {w : World T F} {b : Ledger F} (h : Books none (!r) w b)
    (hopen : w.conn.closed r = false) (hkept : Kept (!r) w.conn b)
    (hstop : b.sent.countP (fun x => x.2.stop ≤ b.received.length) ≤ b.got.length ∨
      ∀ e ∈ (w.conn.dir !r).queue.head?, (w.conn.dir !r).read < e.2) : b.Delivered := by
  have hopen' : w.conn.closed (!!r) ≠ true := by
    rw [Bool.not_not, hopen]
    exact false_ne_true
  obtain ⟨old, lost, now, hsent, hqueue, hgot, -⟩ := h.tracks.fds
  have hlen := hkept.resolve_left hopen'
  have hstops := h.talks.stops.resolve_left hopen'
  rw [hqueue, length_map, ← hgot.length_eq, hsent, length_append, length_append]
    at hlen
  obtain rfl : lost = [] := eq_nil_of_length_eq_zero (by omega)
  rw [append_nil] at hsent
  intro k x hx hread
  by_cases hk : k < old.length
  · -- handed over, now or before
    have hx' : old[k]? = some x := by
      rw [hsent, getElem?_append_left hk] at hx
      exact hx
    obtain ⟨hkx, rfl⟩ := List.getElem?_eq_some_iff.mp hx'
    have hky : k < b.got.length := hgot.length_eq ▸ hk
    have hfst : old[k].1 = b.got[k].1 := (hgot.get hkx hky).1
    refine ⟨b.got[k].2, ?_⟩
    rw [getElem?_eq_getElem hky, hfst]
  · -- still waiting, and so is the first that waits
    have hmem : x ∈ now := by
      rw [hsent, getElem?_append_right (not_lt.mp hk)] at hx
      exact mem_of_getElem? hx
    exfalso
    rw [hsent, pairwise_append] at hstops
    rcases hstop with hall | hnext
    · -- all messages before its own are read past too, which makes more than were handed over
      have hold : old.countP (fun y => y.2.stop ≤ b.received.length) = old.length :=
        countP_eq_length.mpr fun y hy => decide_eq_true ((hstops.2.2 y hy x hmem).trans hread)
      have hpos : 0 < now.countP fun y => y.2.stop ≤ b.received.length :=
        countP_pos_iff.mpr ⟨x, hmem, decide_eq_true hread⟩
      rw [hsent, countP_append, hold, ← hgot.length_eq] at hall
      omega
    rw [h.tracks.read_eq, hqueue] at hnext
    cases hnow : now with
    | nil =>
      rw [hnow] at hmem
      cases hmem
    | cons y rest =>
      rw [hnow] at hnext hmem hstops
      have hlt : b.received.length < y.2.stop := hnext (y.1, y.2.stop) rfl
      have hle : y.2.stop ≤ x.2.stop := by
        rcases mem_cons.mp hmem with rfl | hrest
        · exact le_rfl
        · exact (pairwise_cons.mp hstops.2.1).1 x hrest
      omega

/-- After orderly steps, a receive that asks for as many descriptors as messages it reads past have
left to hand over gets all of them. -/
theorem run_delivered [Inhabited F] {r : Bool} {ls : List (Call T F × Effect F)} {w w' : World T F}
    (h : Run (sockStep (Orderly (!r))) (World.fresh T F) ls w) {call : Call T F} {len want : ℕ}
    {bytes : List UInt8} {fds : List F}
    (hlast : sockStep (Orderly (!r)) w (call, .received r len want bytes fds) w')
    (hwant : (ledger (!r) ls).sent.countP
        (fun x => x.2.stop ≤ (ledger (!r) ls).received.length + bytes.length) ≤
      (ledger (!r) ls).got.length + want) :
    (ledger (!r) (ls ++ [(call, .received r len want bytes fds)])).Delivered := by
  have hrun : ∀ {ls w}, Run (sockStep (Orderly (!r))) (World.fresh T F) ls w → w.Ok ∧
      Kept (!r) w.conn (ledger (!r) ls) ∧ Books none (!r) w (ledger (!r) ls) := by
    refine fun {ls w} h => run_books (fun w ls => Kept (!r) w.conn (ledger (!r) ls)) none (!r)
      (.inr rfl) (fun w ls call w' eff hkept hok horderly hturn => ?_)
      (fun _ _ _ _ horderly _ => careful_of_orderly horderly) h
    rw [ledger_concat]
    exact hturn.kept hok horderly hkept
  obtain ⟨hok, -, -⟩ := hrun h
  obtain ⟨-, hkept, hbooks⟩ := hrun (h.trans (.cons hlast (.nil _)))
  have hturn : Turn w call w' (.received r len want bytes fds) := sockStep_turn hok hlast
  cases hturn with
  | takes t _ _ _ c' _ _ hopen hat htakes =>
    have hopen' : c'.closed r = false := by rw [htakes.closed_eq, hopen]
    refine hbooks.delivered hopen' hkept ?_
    obtain ⟨got, -, hfds, -, hwanted | hnext⟩ := htakes.taken
    · -- as many as were asked for, so all of them
      left
      rw [ledger_concat, Ledger.sent_received, Ledger.length_got_received,
        Ledger.length_received, hfds, length_map, hwanted]
      exact hwant
    · exact .inr hnext

/-- A message with a descriptor is sent, its sender closes, and the message is read. -/
theorem not_delivered_of_close : ¬ ∀ (ls : List (Call Bool ℕ × Effect ℕ)) (w w' : World Bool ℕ)
    (call : Call Bool ℕ) (len want : ℕ) (bytes : List UInt8) (fds : List ℕ),
    Run (sockStep fun _ _ => True) (World.fresh Bool ℕ) ls w →
    sockStep (fun _ _ => True) w (call, .received true len want bytes fds) w' →
    (ledger false ls).sent.length ≤ (ledger false ls).got.length + want →
    (ledger false (ls ++ [(call, .received true len want bytes fds)])).Delivered := by
  intro hall
  have hlegal : Legal (fun w call => w.Allows call ∧ True) World.exec (World.fresh Bool ℕ)
      [.send false false [7] [5], .unref false] :=
    ⟨⟨⟨rfl, rfl, rfl⟩, trivial⟩, ⟨⟨rfl, fun _ t q hq => by cases t <;> cases hq⟩, trivial⟩, trivial⟩
  have hdelivered := hall _ _ _ (.recv true true 1 1) 1 1 [7] [] hlegal.run
    ⟨⟨⟨rfl, rfl, rfl⟩, trivial⟩, rfl⟩ (by decide)
  obtain ⟨consumed, hgot⟩ := hdelivered 0 (5, ⟨0, [7]⟩) rfl (by decide)
  cases hgot

/-- Two messages with descriptors, and a receive that ends inside the first. -/
def twoMessages : List (Call Bool ℕ) :=
  [.send false false [7, 8, 9] [5], .send false false [1, 2] [6, 4], .recv true true 2 3]

/-- The next receive ends inside the second message. One descriptor is enough for it. -/
theorem run_delivered_twoMessages :
    let ls := labels World.exec (World.fresh Bool ℕ) twoMessages
    let l : Call Bool ℕ × Effect ℕ := (.recv true true 2 1, .received true 2 1 [9, 1] [5])
    (ledger false (ls ++ [l])).Delivered ∧ (ledger false (ls ++ [l])).got = [(5, 4)] := by
  have hidle : ∀ w : World Bool ℕ, w.waiting false = none ∧ w.waiting true = none →
      w.Idle false := by
    rintro w ⟨hfalse, htrue⟩ (_ | _) q hq
    · rw [hfalse] at hq
      cases hq
    · rw [htrue] at hq
      cases hq
  have hlegal : Legal (fun w call => w.Allows call ∧ Orderly false w call) World.exec
      (World.fresh Bool ℕ) twoMessages :=
    ⟨⟨⟨rfl, rfl, rfl⟩, fun _ => ⟨hidle _ ⟨rfl, rfl⟩, by decide⟩⟩,
      ⟨⟨rfl, rfl, rfl⟩, fun _ => ⟨hidle _ ⟨rfl, rfl⟩, by decide⟩⟩,
      ⟨⟨rfl, rfl, rfl⟩, trivial⟩, trivial⟩
  refine ⟨?_, rfl⟩
  exact run_delivered (r := true) hlegal.run ⟨⟨⟨rfl, rfl, rfl⟩, trivial⟩, rfl⟩ (by decide)

/-! ## Empty receives -/

/-- The receive finds an open peer, no bytes, and descriptors it does not hand over: those of a
message that is still being written, or any when it asks for none. -/
def Starved (c : Conn F) (s : Bool) (want : ℕ) : Prop :=
  c.closed (!s) = false ∧ (c.dir !s).buf.count = 0 ∧ 0 < (c.dir !s).fds.count ∧
    (want = 0 ∨ (c.dir !s).read < (c.dir !s).fds.front.2)

variable {len want : ℕ}

namespace Dir

variable {d : Dir F}

lemma drain_eq_nil_iff (hlen : 0 < len) : (d.drain len).1 = [] ↔ d.buf.count = 0 := by
  obtain ⟨k, rfl⟩ := exists_eq_succ_of_ne_zero hlen.ne'
  rw [drain]
  split
  next hsome => exact ⟨fun h => absurd h (cons_ne_nil _ _), fun h => absurd h hsome.ne'⟩
  next hnone => exact ⟨fun _ => Nat.eq_zero_of_not_pos hnone, fun _ => rfl⟩

lemma drain_of_count_eq_zero (h : d.buf.count = 0) (len : ℕ) : d.drain len = ([], d) := by
  cases len with
  | zero => rfl
  | succ k => rw [drain, if_neg (h ▸ Nat.lt_irrefl 0)]

lemma handOver_eq_nil_iff :
    (d.handOver want).1 = [] ↔ want = 0 ∨ ¬ (0 < d.fds.count ∧ d.fds.front.2 ≤ d.read) := by
  cases want with
  | zero => exact ⟨fun _ => .inl rfl, fun _ => rfl⟩
  | succ k =>
    rw [handOver]
    split
    next hnext =>
      exact ⟨fun h => absurd h (cons_ne_nil _ _),
        fun h => absurd hnext (h.resolve_left (succ_ne_zero k))⟩
    next hnext => exact ⟨fun _ => .inr hnext, fun _ => rfl⟩

end Dir

/-- A starved receive returns nothing and changes nothing. -/
lemma Starved.socketRecv {s : Bool} (h : Starved c s want) (len : ℕ) :
    (c.socketRecv s len want).2 = (.received s len want [] [], none) := by
  obtain ⟨hpeer, hz, hqueued, hheld⟩ := h
  have hnone : ((c.dir !s).handOver want).1 = [] :=
    Dir.handOver_eq_nil_iff.mpr (hheld.imp_right fun hlt hnext => not_le.mpr hlt hnext.2)
  rw [Conn.socketRecv, if_neg fun hidle => hqueued.ne' hidle.2.1, Dir.drain_of_count_eq_zero hz]
  dsimp only
  rw [hnone]

/-- A receive that returns nothing from an open peer is starved. -/
lemma starved_of_received_nothing {s : Bool} (hlen : 0 < len)
    (h : (c.socketRecv s len want).2.1 = .received s len want [] [])
    (hpeer : c.closed (!s) = false) : Starved c s want := by
  rw [Conn.socketRecv] at h
  split_ifs at h with hready
  injection h with _ _ _ hbytes hfds
  have hz : (c.dir !s).buf.count = 0 := (Dir.drain_eq_nil_iff hlen).mp hbytes
  rw [Dir.drain_of_count_eq_zero hz, Dir.handOver_eq_nil_iff] at hfds
  -- it did not wait, so a descriptor is queued
  have hqueued : 0 < (c.dir !s).fds.count :=
    Nat.pos_of_ne_zero fun hz' => hready ⟨hz, hz', hpeer⟩
  refine ⟨hpeer, hz, hqueued, hfds.imp_right fun hnext => ?_⟩
  exact Nat.lt_of_not_le fun hle => hnext ⟨hqueued, hle⟩

lemma World.At.exec_recv {w : World T F} {t : T} {r : Bool}
    (h : w.At call t (.recv r len want)) : w.exec call = w.ran t (w.conn.socketRecv r len want) := by
  cases h with
  | receives => rfl
  | resumes hwaiting => rw [World.exec, hwaiting]

/-- A receive that returns no bytes and no descriptors tells that the peer has closed, unless it is
starved. -/
theorem received_nothing_iff [Inhabited F] {ls : List (Call T F × Effect F)} {w w' : World T F}
    (h : Run (sockStep fun _ _ => True) (World.fresh T F) ls w) {call : Call T F} {s : Bool}
    {len want : ℕ} {bytes : List UInt8} {fds : List F} (hlen : 0 < len)
    (hlast : sockStep (fun _ _ => True) w (call, .received s len want bytes fds) w') :
    (bytes = [] ∧ fds = [] → w.conn.closed (!s) = true) ↔ ¬ Starved w.conn s want := by
  have hok : w.Ok := Run.invariant (P := World.Ok)
    (fun _ _ _ hok hstep => (sockStep_turn hok hstep).ok hok) h World.ok_fresh
  have hturn : Turn w call w' (.received s len want bytes fds) := sockStep_turn hok hlast
  have hrecv : (w.conn.socketRecv s len want).2.1 = .received s len want bytes fds := by
    cases hturn with
    | takes t _ _ _ c' _ _ hopen hat htakes =>
      have hexec := hlast.2
      rw [hat.exec_recv] at hexec
      exact congrArg Prod.snd hexec
  constructor
  · intro himp hstarved
    rw [hstarved.socketRecv] at hrecv
    injection hrecv with _ _ _ hbytes hfds
    exact false_ne_true (hstarved.1.symm.trans (himp ⟨hbytes.symm, hfds.symm⟩))
  · rintro hfed ⟨rfl, rfl⟩
    by_contra hpeer
    exact hfed (starved_of_received_nothing hlen hrecv (eq_false_of_not_eq_true hpeer))

theorem received_nothing_iff_sample :
    let w := play World.exec (World.fresh Bool ℕ) [.unref false]
    (([] : List UInt8) = [] ∧ ([] : List ℕ) = [] → w.conn.closed false = true) ↔
      ¬ Starved w.conn true 1 := by
  have hlegal : Legal (fun w call => w.Allows call ∧ True) World.exec (World.fresh Bool ℕ)
      [.unref false] :=
    ⟨⟨⟨rfl, fun _ t q hq => absurd hq.symm (Option.some_ne_none q)⟩, trivial⟩, trivial⟩
  have hlast : sockStep (fun _ _ => True) (play World.exec (World.fresh Bool ℕ) [.unref false])
      (.recv true true 1 1, .received true 1 1 [] [])
      (play World.exec (World.fresh Bool ℕ) [.unref false, .recv true true 1 1]) :=
    ⟨⟨⟨rfl, rfl, rfl⟩, trivial⟩, rfl⟩
  exact received_nothing_iff hlegal.run zero_lt_one hlast

/-- A message longer than the buffer is not written as a whole, but its descriptor is queued. -/
lemma exists_sendRoom (msg : List UInt8) (hlen : msg.length = sockCap + 1) :
    ∃ (c : Conn ℕ) (k : ℕ), k < sockCap + 1 ∧ (Conn.fresh ℕ).socketSend false msg [5] =
      (c, .sent false [5] msg (msg.take k) none, some (.sendRoom false msg k)) ∧
    c.closed = (fun _ => false) ∧ (c.dir false).Ok ∧ (c.dir false).bytes.length = k ∧
    (c.dir false).read = 0 ∧ (c.dir false).queue = [(5, sockCap + 1)] := by
  have hroom : ((Conn.fresh ℕ).dir false).fds.count + [5].length ≤ sockFdCap := by decide
  obtain ⟨hok, -⟩ := Dir.queueFds_spec (Dir.ok_zero (F := ℕ)) msg.length [5] hroom
  have hok' : (((Conn.fresh ℕ).setDir false ((Dir.zero ℕ).queueFds msg.length [5])).dir
      false).Ok := by rwa [Conn.setDir_self]
  obtain ⟨c, e, hsend, -, happ, hwhy, -⟩ := Conn.sendBytes_spec false msg hok' 0 [5]
  have hsends := happ.sends_queued (c := Conn.fresh ℕ) Dir.ok_zero hroom
  have hbytes : (c.dir false).bytes = msg.take e.pos := hsends.bytes_eq
  have hcount : (c.dir false).bytes.length ≤ sockCap := by
    rw [Dir.bytes, Ring.length_contents]
    exact happ.ok.buf.count_le
  have hpos : e.pos < sockCap + 1 := by
    rw [hbytes, length_take, hlen] at hcount
    omega
  cases e with
  | finished k => exact absurd (hlen ▸ hwhy) (not_le.mpr hpos)
  | broken k => cases hwhy
  | waiting k =>
    refine ⟨c, k, hpos, hsend, hsends.closed_eq, hsends.ok, ?_, hsends.read_eq, ?_⟩
    · rw [hbytes, length_take, hlen]
      exact min_eq_left hpos.le
    · rw [hsends.queue_eq, hlen]
      rfl

/-- A receive that takes all bytes of such a message leaves the connection starved. -/
lemma starved_of_drained {c : Conn ℕ} {k n : ℕ} (hn : sockCap ≤ n) (hk : k < n)
    (hclosed : c.closed = fun _ => false) (hok : (c.dir false).Ok)
    (hbytes : (c.dir false).bytes.length = k) (hread : (c.dir false).read = 0)
    (hqueue : (c.dir false).queue = [(5, n)]) :
    ∃ c' bytes, c.socketRecv true n 1 = (c', .received true n 1 bytes [], none) ∧
      c'.closed = (fun _ => false) ∧ Starved c' true 1 := by
  have hqueued : (c.dir false).fds.count = 1 := by
    have hone := congrArg length hqueue
    rwa [Dir.queue, Ring.length_contents] at hone
  have hfront : (c.dir false).fds.front.2 = n := by
    have hcons := hok.fds.contents_pop (hqueued ▸ zero_lt_one)
    exact congrArg Prod.snd (cons.inj (hcons.symm.trans hqueue)).1
  obtain ⟨hok', hsplit, hdrained, hread', -, hfds⟩ := Dir.drain_spec hok n
  have hall : ((c.dir false).drain n).1.length = k := by
    rw [hdrained, ← hbytes, Dir.bytes, Ring.length_contents, min_eq_right]
    exact hok.buf.count_le.trans hn
  have hz : ((c.dir false).drain n).2.buf.count = 0 := by
    have hlen := congrArg length hsplit
    rw [length_append, hbytes, hall, Dir.bytes, Ring.length_contents] at hlen
    omega
  have hpast : ((c.dir false).drain n).2.read < n := by
    rw [hread' 0 hread, hall, zero_add]
    exact lt_of_le_of_lt (mod_le _ _) hk
  generalize hd : (c.dir false).drain n = r at *
  have hnone : r.2.handOver 1 = ([], r.2) := by
    rw [Dir.handOver, if_neg]
    rintro ⟨-, hle⟩
    rw [hfds, hfront] at hle
    omega
  refine ⟨c.setDir false r.2, r.1, ?_, hclosed, ?_⟩
  · rw [Conn.socketRecv, if_neg fun hidle => ?_]
    · change (c.setDir false (((c.dir false).drain n).2.handOver 1).2,
        Effect.received true n 1 ((c.dir false).drain n).1
          (((c.dir false).drain n).2.handOver 1).1, none) = _
      rw [hd, hnone]
    · exact one_ne_zero (hqueued.symm.trans hidle.2.1)
  · have hdir : (c.setDir false r.2).dir (!true) = r.2 := Conn.setDir_self
    rw [Starved, hdir, hfds, hqueued, hfront]
    exact ⟨congrFun hclosed _, hz, zero_lt_one, .inr hpast⟩

/-- While a long message with a descriptor is being sent, the bytes sent so far are read, and the
next receive returns nothing although the peer is open. -/
theorem not_closed_of_received_nothing :
    ¬ ∀ (ls : List (Call Bool ℕ × Effect ℕ)) (w w' : World Bool ℕ) (call : Call Bool ℕ)
      (len want : ℕ), 0 < len → Run (sockStep fun _ _ => True) (World.fresh Bool ℕ) ls w →
      sockStep (fun _ _ => True) w (call, .received true len want [] []) w' →
      w.conn.closed false = true := by
  intro hall
  let msg : List UInt8 := replicate (sockCap + 1) 0
  obtain ⟨c, k, hk, hsend, hclosed, hok, hbytes, hread, hqueue⟩ :=
    exists_sendRoom msg length_replicate
  obtain ⟨c', bytes, hrecv, hclosed', hstarved⟩ :=
    starved_of_drained (le_succ _) hk hclosed hok hbytes hread hqueue
  -- the sender has blocked, and the receiver reads twice
  let w1 : World Bool ℕ := ⟨c, update (fun _ => none) false (some (.sendRoom false msg k)),
    fun _ => false⟩
  let w2 : World Bool ℕ := { w1 with conn := c', waiting := update w1.waiting true none }
  have hfirst : sockStep (fun _ _ => True) (World.fresh Bool ℕ)
      (.send false false msg [5], .sent false [5] msg (msg.take k) none) w1 :=
    ⟨⟨⟨rfl, rfl, rfl⟩, trivial⟩, congrArg ((World.fresh Bool ℕ).ran false) hsend⟩
  have hsecond : sockStep (fun _ _ => True) w1 (.recv true true (sockCap + 1) 1,
      .received true (sockCap + 1) 1 bytes []) w2 :=
    ⟨⟨⟨rfl, rfl, congrFun hclosed _⟩, trivial⟩, congrArg (w1.ran true) hrecv⟩
  have hthird : sockStep (fun _ _ => True) w2 (.recv true true 1 1, .received true 1 1 [] [])
      (w2.exec (.recv true true 1 1)).1 := by
    refine ⟨⟨⟨rfl, rfl, congrFun hclosed' _⟩, trivial⟩, Prod.ext rfl ?_⟩
    exact congrArg Prod.fst (hstarved.socketRecv 1)
  have hpeer := hall _ _ _ _ 1 1 zero_lt_one (.cons hfirst (.cons hsecond (.nil _))) hthird
  exact false_ne_true ((congrFun hclosed' false).symm.trans hpeer)

end Wos.Ipc
