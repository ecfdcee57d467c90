import Wos.Net.TcpReceive

/-!
# What a program sends on a connection

`net_tcp_send` cuts its data into chunks, and sends each of them up to five times until the peer has
acknowledged it. `snd_nxt` is moved back to the start of the chunk before each attempt and past its
end after it. When no attempt is answered the call gives up and leaves `snd_nxt` past the chunk, so
the next call continues after a gap that nothing will ever fill.

Whether a chunk is answered is decided by what the polls of its five waits bring, and by the
acknowledgements noted before: `waitFate` reads it off the segments without running the call.

## Main definitions

* `Sender`, `SendOp`, `Sender.exec`: a connection that is sent on;
* `Sending`: every counted byte lies at its sequence number;
* `SendOp.Answered`: no chunk of a call goes unanswered.

## Main results

* `sending_iff`: one call keeps the stream contiguous exactly when its chunks are answered;
* `run_sending`: so does every sequence of calls whose chunks are answered.
-/

namespace Wos.Net

open List TcpTable TcpConn Nat

/-! ## How a wait ends -/

/-- How a wait for an acknowledgement ends: it came, the connection was reset, or the deadline
passed. What was acknowledged last is kept. -/
inductive Fate
  | acked (una : ℕ)
  | reset
  | silent (una : ℕ)

/-- `snd_una` after an acknowledgement number. -/
def noteAck (una : ℕ) (seg : Segment) : ℕ :=
  if seg.flags.ack = true ∧ After seg.ack una then seg.ack else una

/-- How one wait ends, given which segments are for the connection. -/
def waitFate (mine : Segment → Bool) (target : ℕ) : List (Option Segment) → ℕ → Fate
  | [], una => .silent una
  | none :: ps, una => if AtLeast una target then .acked una else waitFate mine target ps una
  | some seg :: ps, una =>
    if mine seg = true ∧ seg.flags.rst = true then .reset
    else
      let una := if mine seg then noteAck una seg else una
      if AtLeast una target then .acked una else waitFate mine target ps una

/-- How the attempts at one chunk end. -/
def chunkFate (mine : Segment → Bool) (target : ℕ) : List (List (Option Segment)) → ℕ → Fate
  | [], una => .silent una
  | w :: ws, una =>
    match waitFate mine target w una with
    | .silent una => chunkFate mine target ws una
    | fate => fate

/-- From chunk `k` on, no chunk goes unanswered, unless the peer resets the connection; and the
total that is counted in the end fits in an `int`. -/
def ChunksAnswered (mine : Segment → Bool) (windows : ℕ → Fin 5 → List (Option Segment))
    (total : ℕ) : ℕ → ℕ → ℕ → ℕ → ℕ → Prop
  | 0, _, _, _, _ => total < 2147483648
  | n + 1, k, seq, len, una =>
    if len = 0 then total < 2147483648
    else
      match chunkFate mine ((seq + min tcpMss len) % word32) (List.ofFn (windows k)) una with
      | .reset => True
      | .silent _ => False
      | .acked una =>
        ChunksAnswered mine windows total n (k + 1) ((seq + min tcpMss len) % word32)
          (len - tcpMss) una

/-! ## Sending -/

/-- The connections, and the bytes that `net_tcp_send` has counted so far for one of them. -/
structure Sender where
  table : TcpTable
  counted : List UInt8

/-- What may happen to a connection that a program sends on. -/
inductive SendOp
  | send (data : List UInt8) (windows : ℕ → Fin 5 → List (Option Segment))
  | arrive (seg : Segment)
  | recv (len : ℕ)
  /-- A call on another handle changes its connection and sends something. -/
  | other (h : Fin 4) (r : TcpConn × List Segment)

/-- The bytes a call reports as sent. -/
def SendReply.counted : SendReply → ℕ
  | .count n => n.toNat
  | .failed _ => 0

/-- One operation. -/
def Sender.exec (h : Fin 4) (s : Sender) : SendOp → Sender × Option SendReply
  | .send data windows =>
    let r := netTcpSend s.table (h : ℕ) data windows
    (⟨r.1, s.counted ++ data.take r.2.counted⟩, some r.2)
  | .arrive seg => ({ s with table := tcpInput s.table seg }, none)
  | .recv len =>
    match (s.table.conns h).recvReady len with
    | none => (s, none)
    | some r => ({ s with table := s.table.set h r.1 }, none)
  | .other h' r => ({ s with table := s.table.set h' r }, none)

/-- The length of a buffer is a `uint32_t`, and the other operations are those on other handles. -/
def SendOp.Allowed (h : Fin 4) (_ : Sender) : SendOp → Prop
  | .send data _ => data.length < word32
  | .other h' _ => h' ≠ h
  | _ => True

/-- A segment carries the bytes of a stream that belong at its sequence number. -/
def CarriesAt (isn : ℕ) (stream : List UInt8) (seg : Segment) (off : ℕ) : Prop :=
  seg.seq = (isn + 1 + off) % word32 ∧ seg.data <+: stream.drop off

/-- The counted bytes are contiguous: the next byte goes after the last one counted, every data
segment carries the counted bytes that belong at its sequence number, and every counted byte was
carried. After a reset nothing more is sent, and the data of the call that it ended was sent in
vain. -/
structure Sending (isn : ℕ) (h : Fin 4) (s : Sender) : Prop where
  /-- The next byte goes after the last one counted. -/
  next : (s.table.conns h).reset = true ∨
    (s.table.conns h).sndNxt = (isn + 1 + s.counted.length) % word32
  /-- A data segment carries counted bytes at their place, or after a reset what was sent in vain.
  -/
  placed : ∃ vain, ((s.table.conns h).reset = false → vain = []) ∧
    ∀ p ∈ s.table.sent, p.1 = h → p.2.data ≠ [] → ∃ off, CarriesAt isn (s.counted ++ vain) p.2 off
  /-- Every counted byte was carried by a segment. -/
  carried : ∀ k < s.counted.length, ∃ p ∈ s.table.sent, p.1 = h ∧
    ∃ off, CarriesAt isn s.counted p.2 off ∧ off ≤ k ∧ k < off + p.2.data.length

/-- No chunk of a call goes unanswered. -/
def SendOp.Answered (h : Fin 4) (s : Sender) : SendOp → Prop
  | .send data windows =>
    (s.table.conns h).used = false ∨ (s.table.conns h).reset = true ∨
      (s.table.conns h).state ≠ .established ∨
      ChunksAnswered (fun seg => s.table.find seg = some h) windows data.length data.length 0
        (s.table.conns h).sndNxt data.length (s.table.conns h).sndUna
  | _ => True

/-! ## What a poll leaves alone -/

namespace TcpConn

variable (c : TcpConn) (seg : Segment)

lemma input_sndNxt : (c.input seg).1.sndNxt = c.sndNxt := by
  simp only [input, inputAck, inputSyn, inputData, inputFin, inputLast]
  split_ifs <;> rfl

lemma input_reset : (c.input seg).1.reset = (c.reset || seg.flags.rst) := by
  by_cases hrst : seg.flags.rst = true
  · rw [input, if_pos hrst, hrst, Bool.or_true]
  · simp only [input, hrst, inputAck, inputSyn, inputData, inputFin, inputLast, Bool.or_false,
      Bool.false_eq_true, if_false]
    split_ifs <;> rfl

lemma input_sndUna (hrst : seg.flags.rst = false) :
    (c.input seg).1.sndUna = noteAck c.sndUna seg := by
  simp only [input, hrst, inputAck, inputSyn, inputData, inputFin, inputLast, noteAck,
    Bool.false_eq_true, if_false]
  split_ifs <;> rfl

/-- An answer to a segment carries no data. -/
lemma input_data {p : Segment} (hp : p ∈ (c.input seg).2) : p.data = [] := by
  have hsyn : ∀ c : TcpConn, p ∈ (c.inputSyn seg).2 → p.data = [] := by
    intro c
    unfold inputSyn
    split_ifs <;> simp +contextual [ackSegment, segment]
  have hdata : ∀ c : TcpConn, p ∈ (c.inputData seg).2 → p.data = [] := by
    intro c
    unfold inputData
    split_ifs <;> simp +contextual [ackSegment, segment]
  have hfin : ∀ c : TcpConn, p ∈ (c.inputFin seg).2 → p.data = [] := by
    intro c
    unfold inputFin
    split_ifs <;> simp +contextual [ackSegment, segment]
  by_cases hrst : seg.flags.rst = true
  · rw [input, if_pos hrst] at hp
    cases hp
  by_cases hstate : c.state = .synSent
  · have hinput : c.input seg = (c.inputAck seg).inputSyn seg := by
      rw [input, if_neg hrst]
      exact if_pos ((c.inputAck_state seg).trans hstate)
    rw [hinput] at hp
    exact hsyn _ hp
  · rw [c.input_of_synchronized (by simpa using hrst) hstate] at hp
    rcases mem_append.mp hp with hp | hp
    · exact hdata _ hp
    · exact hfin _ hp

lemma input_established (hc : c.state = .established) (hrst : seg.flags.rst = false) :
    (c.input seg).1.state = .established := by
  rw [c.input_of_synchronized hrst (by rw [hc]; decide)]
  simp only [inputAck, inputData, inputFin, inputLast]
  split_ifs <;> simp_all

end TcpConn

variable {h : Fin 4} {t t' t'' : TcpTable}

/-- Between the attempts of a call, and between calls, a connection only hears from its peer and is
read from: what is sent next stays where it is, and nothing but acknowledgements is sent. -/
structure Quiet (h : Fin 4) (t t' : TcpTable) : Prop where
  /-- Nothing new is numbered. -/
  sndNxt : (t'.conns h).sndNxt = (t.conns h).sndNxt
  /-- A reset stays. -/
  reset : (t.conns h).reset = true → (t'.conns h).reset = true
  /-- What is sent has no data. -/
  sent : ∃ out, t'.sent = t.sent ++ out ∧ ∀ p ∈ out, p.1 = h → p.2.data = []

variable {r : TcpConn × List Segment} {data stream : List UInt8} {out : List (Fin 4 × Segment)}

namespace Quiet

lemma refl (h : Fin 4) (t : TcpTable) : Quiet h t t :=
  ⟨rfl, id, [], (List.append_nil _).symm, fun _ hp => absurd hp not_mem_nil⟩

lemma trans (h1 : Quiet h t t') (h2 : Quiet h t' t'') : Quiet h t t'' := by
  obtain ⟨out1, heq1, hout1⟩ := h1.sent
  obtain ⟨out2, heq2, hout2⟩ := h2.sent
  refine ⟨h2.sndNxt.trans h1.sndNxt, fun hr => h2.reset (h1.reset hr), out1 ++ out2, ?_,
    forall_mem_append.mpr ⟨hout1, hout2⟩⟩
  rw [heq2, heq1, append_assoc]

lemma set_self (hnxt : r.1.sndNxt = (t.conns h).sndNxt)
    (hreset : (t.conns h).reset = true → r.1.reset = true) (hdata : ∀ p ∈ r.2, p.data = []) :
    Quiet h t (t.set h r) := by
  refine ⟨?_, ?_, _, rfl, fun _ hp _ => ?_⟩
  · rw [conns_set]
    exact hnxt
  · rw [conns_set]
    exact hreset
  · obtain ⟨seg, hseg, rfl⟩ := mem_map.mp hp
    exact hdata seg hseg

lemma set_other {h' : Fin 4} (hne : h' ≠ h) (r : TcpConn × List Segment) :
    Quiet h t (t.set h' r) := by
  have hsame := t.conns_set_of_ne hne r
  refine ⟨by rw [hsame], fun hr => by rw [hsame]; exact hr, _, rfl, fun p hp hh => ?_⟩
  obtain ⟨seg, -, rfl⟩ := mem_map.mp hp
  exact absurd hh hne

lemma tcpInput (t : TcpTable) (seg : Segment) : Quiet h t (tcpInput t seg) := by
  unfold Net.tcpInput
  split
  · exact refl h t
  rename_i h' _
  by_cases hh : h' = h
  · subst hh
    refine set_self (input_sndNxt _ seg) (fun hr => ?_) fun p hp => input_data _ seg hp
    rw [input_reset, hr, Bool.true_or]
  · exact set_other hh _

lemma netPoll (t : TcpTable) (p : Option Segment) : Quiet h t (netPoll t p) := by
  cases p with
  | none => exact refl h t
  | some seg => exact tcpInput t seg

lemma recvReady {len : ℕ} {reply : Except Errno (List UInt8)}
    (hready : (t.conns h).recvReady len = some (r, reply)) : Quiet h t (t.set h r) := by
  unfold TcpConn.recvReady at hready
  split_ifs at hready
  all_goals
    obtain ⟨rfl, -⟩ := Prod.mk.inj (Option.some.inj hready)
    refine set_self rfl id ?_
    simp [TcpConn.ackSegment, TcpConn.segment]

end Quiet

/-- Hearing from the peer keeps the counted bytes contiguous. -/
lemma Sending.quiet {isn : ℕ} {s : Sender} (hs : Sending isn h s) (hq : Quiet h s.table t') :
    Sending isn h { s with table := t' } := by
  obtain ⟨out, hsent, hout⟩ := hq.sent
  refine ⟨?_, ?_, fun k hk => ?_⟩
  · rcases hs.next with hr | hnext
    · exact .inl (hq.reset hr)
    · exact .inr (hq.sndNxt.trans hnext)
  · obtain ⟨vain, hvain, hplaced⟩ := hs.placed
    refine ⟨vain, fun hr => hvain ?_, fun p hp hh hdata => ?_⟩
    · by_contra htrue
      rw [hq.reset (by simpa using htrue)] at hr
      cases hr
    · rw [hsent] at hp
      rcases mem_append.mp hp with hp | hp
      · exact hplaced p hp hh hdata
      · exact absurd (hout p hp hh) hdata
  · obtain ⟨p, hp, hcarried⟩ := hs.carried k hk
    refine ⟨p, ?_, hcarried⟩
    rw [hsent]
    exact mem_append_left out hp

/-! ## Which segments are for the connection -/

lemma find_congr (hfits : ∀ h seg, (t'.conns h).Fits seg ↔ (t.conns h).Fits seg) (seg : Segment) :
    t'.find seg = t.find seg := by
  unfold TcpTable.find
  congr 1
  funext h
  rw [decide_eq_decide]
  exact hfits h seg

lemma find_set {h : Fin 4} (hfits : ∀ seg, r.1.Fits seg ↔ (t.conns h).Fits seg) (seg : Segment) :
    (t.set h r).find seg = t.find seg := by
  refine find_congr (fun h' seg => ?_) seg
  by_cases hh : h = h'
  · subst hh
    rw [conns_set]
    exact hfits seg
  · rw [t.conns_set_of_ne hh]

lemma find_netPoll (t : TcpTable) (p : Option Segment) (seg : Segment) :
    (netPoll t p).find seg = t.find seg := by
  cases p with
  | none => rfl
  | some seg' =>
    rw [netPoll, tcpInput]
    split
    · rfl
    · exact find_set (fits_input _ seg') seg

lemma netPoll_mine {seg : Segment} (hfind : t.find seg = some h) :
    (netPoll t (some seg)).conns h = ((t.conns h).input seg).1 := by
  rw [netPoll, tcpInput, hfind]
  exact t.conns_set h _

lemma netPoll_not_mine {seg : Segment} (hfind : t.find seg ≠ some h) :
    (netPoll t (some seg)).conns h = t.conns h := by
  rw [netPoll, tcpInput]
  split
  · rfl
  · rename_i h' hfind'
    refine t.conns_set_of_ne (fun hh => hfind ?_) _
    rw [hfind', hh]

/-! ## How waits and attempts end -/

/-- A connection at the end of a wait, and whether the wait was over before the deadline. -/
def Fate.Ends : Fate → TcpConn → Bool → Prop
  | .acked una, c, ended =>
    ended = true ∧ c.reset = false ∧ c.state = .established ∧ c.sndUna = una
  | .reset, c, ended => ended = true ∧ c.reset = true
  | .silent una, c, ended =>
    ended = false ∧ c.reset = false ∧ c.state = .established ∧ c.sndUna = una

/-- An established connection, and the segments that are for it. -/
structure Busy (mine : Segment → Bool) (h : Fin 4) (t : TcpTable) : Prop where
  mine_iff : ∀ seg, mine seg = true ↔ t.find seg = some h
  reset : (t.conns h).reset = false
  state : (t.conns h).state = .established

variable {mine : Segment → Bool}

section

variable (hb : Busy mine h t)

include hb

lemma Busy.congr (hfind : ∀ seg, t'.find seg = t.find seg) (hreset : (t'.conns h).reset = false)
    (hstate : (t'.conns h).state = .established) : Busy mine h t' :=
  ⟨fun seg => by rw [hfind seg]; exact hb.mine_iff seg, hreset, hstate⟩

/-- What a poll means to a wait: a reset ends it, and otherwise it goes on from what the connection
has noted. -/
lemma netPoll_fate (target : ℕ) (p : Option Segment) (ps : List (Option Segment)) :
    let c := (netPoll t p).conns h
    (c.reset = true ∧ waitFate mine target (p :: ps) (t.conns h).sndUna = .reset) ∨
      (c.reset = false ∧ c.state = .established ∧ waitFate mine target (p :: ps) (t.conns h).sndUna =
        if AtLeast c.sndUna target then .acked c.sndUna else waitFate mine target ps c.sndUna) := by
  dsimp only
  cases p with
  | none => exact .inr ⟨hb.reset, hb.state, rfl⟩
  | some seg =>
    by_cases hmine : mine seg = true
    · rw [netPoll_mine ((hb.mine_iff seg).mp hmine), input_reset, hb.reset, Bool.false_or]
      by_cases hrst : seg.flags.rst = true
      · exact .inl ⟨hrst, if_pos ⟨hmine, hrst⟩⟩
      rw [Bool.not_eq_true] at hrst
      refine .inr ⟨hrst, input_established _ seg hb.state hrst, ?_⟩
      rw [input_sndUna _ seg hrst]
      simp [waitFate, hmine, hrst]
    · rw [netPoll_not_mine fun hf => hmine ((hb.mine_iff seg).mpr hf)]
      refine .inr ⟨hb.reset, hb.state, ?_⟩
      simp [waitFate, hmine]

/-- Waiting for an acknowledgement ends as the segments that arrive decide. -/
lemma waitFor_fate (target : ℕ) (polls : List (Option Segment)) :
    Quiet h t (waitFor (settled h target) polls t).1 ∧
      (∀ seg, (waitFor (settled h target) polls t).1.find seg = t.find seg) ∧
      (waitFate mine target polls (t.conns h).sndUna).Ends
        ((waitFor (settled h target) polls t).1.conns h) (waitFor (settled h target) polls t).2 := by
  induction polls generalizing t with
  | nil => exact ⟨Quiet.refl h t, fun _ => rfl, rfl, hb.reset, hb.state, rfl⟩
  | cons p ps ih =>
    have hq := Quiet.netPoll (h := h) t p
    have hfind := find_netPoll t p
    rcases netPoll_fate hb target p ps with ⟨hreset, hfate⟩ | ⟨hreset, hstate, hfate⟩
    · -- the peer resets the connection
      have hsettled : settled h target (netPoll t p) = true := by
        rw [settled, hreset, Bool.true_or]
      rw [hfate, waitFor, if_pos hsettled]
      exact ⟨hq, hfind, rfl, hreset⟩
    · have hsettled : settled h target (netPoll t p) =
          decide (AtLeast ((netPoll t p).conns h).sndUna target) := by
        rw [settled, hreset, Bool.false_or]
      rw [hfate, waitFor, hsettled]
      by_cases hat : AtLeast ((netPoll t p).conns h).sndUna target
      · rw [if_pos (decide_eq_true hat), if_pos hat]
        exact ⟨hq, hfind, rfl, hreset, hstate, rfl⟩
      · rw [if_neg (by simpa using hat), if_neg hat]
        obtain ⟨hq', hfind', hends⟩ := ih (hb.congr hfind hreset hstate)
        exact ⟨hq.trans hq', fun seg => (hfind' seg).trans (hfind seg), hends⟩

lemma Busy.emit (seq : ℕ) (flags : TcpFlags) (data : List UInt8) (next : ℕ) :
    Busy mine h (t.emit h seq flags data next) := by
  refine hb.congr (find_set fun _ => Iff.rfl) ?_ ?_
  · rw [TcpTable.emit, conns_set]
    exact hb.reset
  · rw [TcpTable.emit, conns_set]
    exact hb.state

/-- The attempts at one chunk: every data segment is the chunk at its place, and there is one. -/
lemma sendAttempts_fate (seq : ℕ) (chunk : List UInt8) {windows : List (List (Option Segment))}
    (hnil : windows = [] → (t.conns h).sndNxt = (seq + chunk.length) % word32) :
    ((sendAttempts h seq chunk windows t).1.conns h).sndNxt = (seq + chunk.length) % word32 ∧
      (∀ seg, (sendAttempts h seq chunk windows t).1.find seg = t.find seg) ∧
      (chunkFate mine ((seq + chunk.length) % word32) windows (t.conns h).sndUna).Ends
        ((sendAttempts h seq chunk windows t).1.conns h) (sendAttempts h seq chunk windows t).2 ∧
      ∃ out, (sendAttempts h seq chunk windows t).1.sent = t.sent ++ out ∧
        (∀ p ∈ out, p.1 = h → p.2.data ≠ [] → p.2.seq = seq ∧ p.2.data = chunk) ∧
        (windows ≠ [] → ∃ p ∈ out, p.1 = h ∧ p.2.seq = seq ∧ p.2.data = chunk) := by
  induction windows generalizing t with
  | nil =>
    exact ⟨hnil rfl, fun _ => rfl, ⟨rfl, hb.reset, hb.state, rfl⟩, [], (List.append_nil _).symm,
      fun _ hp => absurd hp not_mem_nil, fun hne => absurd rfl hne⟩
  | cons w ws ih =>
    set next := (seq + chunk.length) % word32
    set t1 := t.emit h seq { psh := true, ack := true } chunk next with ht1
    set r := waitFor (settled h next) w t1 with hr
    have hb1 : Busy mine h t1 := hb.emit seq { psh := true, ack := true } chunk next
    obtain ⟨hq, hfind, hends⟩ := waitFor_fate hb1 next w
    have hfind1 : ∀ seg, t1.find seg = t.find seg := find_set fun _ => Iff.rfl
    have huna : (t1.conns h).sndUna = (t.conns h).sndUna := by
      rw [ht1, TcpTable.emit, conns_set]
    have hsnd : (r.1.conns h).sndNxt = next := by
      rw [hq.sndNxt, ht1, TcpTable.emit, conns_set]
    rw [huna] at hends
    -- what this attempt sends
    obtain ⟨out, hsent, hout⟩ := hq.sent
    set first := { t.conns h with sndNxt := seq }.segment { psh := true, ack := true } chunk
    have hsent1 : r.1.sent = t.sent ++ ((h, first) :: out) := by
      rw [hsent, ht1, TcpTable.emit, TcpTable.set, append_assoc]
      rfl
    have hout1 : ∀ p ∈ (h, first) :: out, p.1 = h → p.2.data ≠ [] →
        p.2.seq = seq ∧ p.2.data = chunk :=
      forall_mem_cons.mpr
        ⟨fun _ _ => ⟨rfl, rfl⟩, fun p hp hh hdata => absurd (hout p hp hh) hdata⟩
    have hsend : sendAttempts h seq chunk (w :: ws) t
        = if r.2 then r else sendAttempts h seq chunk ws r.1 := rfl
    rw [hsend, chunkFate]
    cases hfate : waitFate mine next w (t.conns h).sndUna with
    | acked una | reset =>
      rw [hfate] at hends
      rw [if_pos hends.1]
      exact ⟨hsnd, fun seg => (hfind seg).trans (hfind1 seg), hends, _, hsent1, hout1,
        fun _ => ⟨_, mem_cons_self, rfl, rfl, rfl⟩⟩
    | silent una =>
      rw [hfate] at hends
      obtain ⟨hover, hreset, hstate, huna'⟩ := hends
      obtain ⟨hsnd', hfind', hends', out', hsent', hout', -⟩ :=
        ih (hb1.congr hfind hreset hstate) fun _ => hsnd
      rw [huna'] at hends'
      rw [if_neg (by rw [hover]; exact Bool.false_ne_true)]
      refine ⟨hsnd', fun seg => (hfind' seg).trans ((hfind seg).trans (hfind1 seg)), hends',
        ((h, first) :: out) ++ out', ?_, forall_mem_append.mpr ⟨hout1, hout'⟩,
        fun _ => ⟨_, mem_append_left _ mem_cons_self, rfl, rfl, rfl⟩⟩
      rw [hsent', hsent1, append_assoc]

end

/-! ## How a call ends -/

/-- How the loop of a call ends that was to send `data` from place `a` of a stream on, having counted
`sent` bytes before: the connection was reset, everything was acknowledged, or the call gave up
`done` bytes on, with `more` bytes sent that it does not count. -/
inductive SendEnd (answered : Prop) (isn : ℕ) (h : Fin 4) (a sent total : ℕ) (data stream : List UInt8)
    (out : List (Fin 4 × Segment)) (c : TcpConn) : SendReply → Prop
  | reset : c.reset = true → answered → SendEnd answered isn h a sent total data stream out c
      (.failed .ECONNRESET)
  | all : c.reset = false → c.sndNxt = (isn + 1 + (a + data.length)) % word32 →
      (answered ↔ total < 2147483648) →
      (∀ k, a ≤ k → k < a + data.length → ∃ p ∈ out, p.1 = h ∧
        ∃ off, CarriesAt isn stream p.2 off ∧ off ≤ k ∧ k < off + p.2.data.length) →
      SendEnd answered isn h a sent total data stream out c (.count (toInt32 (sent + data.length)))
  | gaveUp (done more : ℕ) : c.reset = false → ¬ answered → 0 < more → done + more ≤ data.length →
      c.sndNxt = (isn + 1 + (a + done + more)) % word32 →
      SendEnd answered isn h a sent total data stream out c
        (if 0 < sent + done then .count (toInt32 (sent + done)) else .failed .ETIMEDOUT)

/-- The rest of a call after a chunk was acknowledged. -/
lemma SendEnd.after_chunk {answered : Prop} {isn a sent total : ℕ} {chunk rest : List UInt8}
    {out' : List (Fin 4 × Segment)} {c : TcpConn} {reply : SendReply} (hdata : data = chunk ++ rest)
    (hchunk : ∃ p ∈ out, p.1 = h ∧ CarriesAt isn stream p.2 a ∧ p.2.data = chunk)
    (hend : SendEnd answered isn h (a + chunk.length) (sent + chunk.length) total rest stream out' c
      reply) :
    SendEnd answered isn h a sent total data stream (out ++ out') c reply := by
  have hlen : data.length = chunk.length + rest.length := by rw [hdata, length_append]
  cases hend with
  | reset hreset hanswered => exact .reset hreset hanswered
  | all hreset hnext hanswered hcarried =>
    rw [add_assoc a, ← hlen] at hnext
    rw [add_assoc sent, ← hlen]
    refine .all hreset hnext hanswered fun k hk hk' => ?_
    by_cases hin : k < a + chunk.length
    · obtain ⟨p, hp, hh, hat, hpdata⟩ := hchunk
      exact ⟨p, mem_append_left _ hp, hh, a, hat, hk, by rw [hpdata]; exact hin⟩
    · obtain ⟨p, hp, hcarry⟩ := hcarried k (by omega) (by omega)
      exact ⟨p, mem_append_right _ hp, hcarry⟩
  | gaveUp done more hreset hanswered hmore hle hnext =>
    rw [add_assoc sent]
    refine .gaveUp (chunk.length + done) more hreset hanswered hmore (by omega) ?_
    rw [hnext, ← add_assoc a]

/-- The loop sends the data in order, chunk by chunk, and ends as the answers decide. -/
lemma sendLoop_ends (windows : ℕ → Fin 5 → List (Option Segment)) (total k sent : ℕ) {isn n a : ℕ}
    (hb : Busy mine h t) (hn : data.length ≤ n)
    (hnext : (t.conns h).sndNxt = (isn + 1 + a) % word32) (hstream : stream.drop a = data) :
    ∃ out, (sendLoop h windows n k sent data t).1.sent = t.sent ++ out ∧
      (∀ p ∈ out, p.1 = h → p.2.data ≠ [] → ∃ off, CarriesAt isn stream p.2 off) ∧
      SendEnd (ChunksAnswered mine windows total n k (t.conns h).sndNxt data.length
          (t.conns h).sndUna) isn h a sent total data stream out
        ((sendLoop h windows n k sent data t).1.conns h) (sendLoop h windows n k sent data t).2 := by
  -- nothing is left to send
  have hdone : ∀ {sent a : ℕ} {t : TcpTable} {answered : Prop}, (t.conns h).reset = false →
      (t.conns h).sndNxt = (isn + 1 + a) % word32 → (answered ↔ total < 2147483648) →
      SendEnd answered isn h a sent total [] stream [] (t.conns h) (.count (toInt32 sent)) :=
    fun hreset hnext hanswered => .all hreset hnext hanswered fun k hk hk' => absurd hk' (by simpa)
  induction n generalizing k sent a data t with
  | zero =>
    obtain rfl := length_eq_zero_iff.mp (le_zero.mp hn)
    exact ⟨[], (List.append_nil _).symm, fun _ hp => absurd hp not_mem_nil,
      hdone hb.reset hnext Iff.rfl⟩
  | succ n ih =>
    by_cases hnil : data = []
    · subst hnil
      exact ⟨[], (List.append_nil _).symm, fun _ hp => absurd hp not_mem_nil,
        hdone hb.reset hnext Iff.rfl⟩
    have hpos : 0 < data.length := length_pos_iff.mpr hnil
    set chunk := data.take tcpMss
    have hlen : chunk.length = min tcpMss data.length := length_take
    have hmore : 0 < chunk.length := by
      rw [hlen]
      exact lt_min (by decide) hpos
    set r := sendAttempts h (t.conns h).sndNxt chunk (ofFn (windows k)) t with hr
    have hwindows : ofFn (windows k) ≠ [] := fun hno => by simp at hno
    obtain ⟨hsnd, hfind, hends, out, hsent, hout, hfirst⟩ :=
      sendAttempts_fate hb (t.conns h).sndNxt chunk fun hno => absurd hno hwindows
    have hat : ∀ p : Fin 4 × Segment, p.2.seq = (t.conns h).sndNxt ∧ p.2.data = chunk →
        CarriesAt isn stream p.2 a := by
      intro p hp
      refine ⟨hp.1.trans hnext, ?_⟩
      rw [hp.2, hstream]
      exact take_prefix tcpMss data
    have hout' : ∀ p ∈ out, p.1 = h → p.2.data ≠ [] → ∃ off, CarriesAt isn stream p.2 off :=
      fun p hp hh hdata => ⟨a, hat p (hout p hp hh hdata)⟩
    have hsnd' : (r.1.conns h).sndNxt = (isn + 1 + (a + chunk.length)) % word32 := by
      rw [hsnd, hnext, mod_add_mod, add_assoc (isn + 1)]
    have hloop : sendLoop h windows (n + 1) k sent data t
        = if r.2 = false then
            (r.1, if 0 < sent then .count (toInt32 sent) else .failed .ETIMEDOUT)
          else if (r.1.conns h).reset then (r.1, .failed .ECONNRESET)
          else sendLoop h windows n (k + 1) (sent + chunk.length) (data.drop tcpMss) r.1 := by
      rw [sendLoop, if_neg hnil]
    rw [hloop, ChunksAnswered, if_neg hpos.ne', ← hlen]
    cases hfate : chunkFate mine (((t.conns h).sndNxt + chunk.length) % word32)
        (ofFn (windows k)) (t.conns h).sndUna with
    | silent una =>
      rw [hfate] at hends
      rw [if_pos hends.1]
      refine ⟨out, hsent, hout', .gaveUp 0 chunk.length hends.2.1 id hmore ?_ ?_⟩
      · rw [hlen, zero_add]
        exact min_le_right ..
      · exact hsnd'
    | reset =>
      rw [hfate] at hends
      rw [if_neg (by rw [hends.1]; decide), if_pos hends.2]
      exact ⟨out, hsent, hout', .reset hends.2 trivial⟩
    | acked una =>
      rw [hfate] at hends
      obtain ⟨hover, hreset, hstate, huna⟩ := hends
      rw [if_neg (by rw [hover]; decide), if_neg (by rw [hreset]; decide)]
      have hrest : stream.drop (a + chunk.length) = data.drop tcpMss := by
        rw [← drop_drop, hstream, hlen]
        rcases le_total tcpMss data.length with hle | hle
        · rw [min_eq_left hle]
        · rw [min_eq_right hle, drop_length, drop_eq_nil_of_le hle]
      have hrestlen : (data.drop tcpMss).length = data.length - tcpMss := length_drop
      obtain ⟨out2, hsent2, hout2, hend⟩ := ih (k + 1) (sent + chunk.length)
        (hb.congr hfind hreset hstate) (by rw [hrestlen]; simp only [tcpMss]; omega) hsnd' hrest
      rw [hsnd, huna, hrestlen] at hend
      obtain ⟨p, hp, hh, hpat⟩ := hfirst hwindows
      refine ⟨out ++ out2, ?_, forall_mem_append.mpr ⟨hout', hout2⟩,
        hend.after_chunk (take_append_drop tcpMss data).symm ⟨p, hp, hh, hat p hpat, hpat.2⟩⟩
      rw [hsent2, hsent, append_assoc]

/-! ## One call and all calls -/

section Calls

variable {isn : ℕ} {s : Sender}

lemma toInt32_toNat (n : ℕ) (hn : n < word32) :
    (toInt32 n).toNat = if n < 2147483648 then n else 0 := by
  unfold toInt32
  split_ifs
  · exact Int.toNat_natCast n
  · omega

/-- `live` on the number of a connection. -/
lemma live_eq (t : TcpTable) (h : Fin 4) :
    t.live (h : ℕ) = if (t.conns h).used = true then some h else none := by
  have hpred : (fun h' : Fin 4 => decide (((h' : ℕ) : ℤ) = (h : ℕ) ∧ (t.conns h').used = true))
      = fun h' => decide (h' = h ∧ (t.conns h).used = true) := by
    funext h'
    rw [decide_eq_decide, Int.natCast_inj, Fin.val_inj]
    constructor
    · rintro ⟨rfl, hused⟩
      exact ⟨rfl, hused⟩
    · rintro ⟨rfl, hused⟩
      exact ⟨rfl, hused⟩
  rw [TcpTable.live, hpred]
  split_ifs with hused
  · simp only [hused, and_true]
    exact (by decide : ∀ h : Fin 4, (finRange 4).find? (fun h' => decide (h' = h)) = some h) h
  · simp [hused]

lemma CarriesAt.append {seg : Segment} {off : ℕ} (hat : CarriesAt isn stream seg off)
    (more : List UInt8) :
    CarriesAt isn (stream ++ more) seg off := by
  refine ⟨hat.1, hat.2.trans ?_⟩
  rw [drop_append]
  exact prefix_append ..

/-- A call that counts nothing and sends nothing. -/
lemma Sending.take_zero (hs : Sending isn h s) (data : List UInt8) :
    Sending isn h ⟨s.table, s.counted ++ data.take 0⟩ := by
  rw [List.take_zero, List.append_nil]
  exact hs

/-- More of the stream was sent, all of it in its place. -/
lemma Sending.extend (hs : Sending isn h s) (vain : List UInt8) {more : List UInt8}
    (hsent : t'.sent = s.table.sent ++ out) (hclear : (s.table.conns h).reset = false)
    (hout : ∀ p ∈ out, p.1 = h → p.2.data ≠ [] →
      ∃ off, CarriesAt isn (s.counted ++ more ++ vain) p.2 off)
    (hnext : (t'.conns h).reset = true ∨
      (t'.conns h).sndNxt = (isn + 1 + (s.counted ++ more).length) % word32)
    (hvain : (t'.conns h).reset = false → vain = [])
    (hcarried : ∀ k, s.counted.length ≤ k → k < s.counted.length + more.length →
      ∃ p ∈ out, p.1 = h ∧ ∃ off, CarriesAt isn (s.counted ++ more) p.2 off ∧ off ≤ k ∧
        k < off + p.2.data.length) :
    Sending isn h ⟨t', s.counted ++ more⟩ := by
  refine ⟨hnext, ⟨vain, hvain, fun p hp hh hdata => ?_⟩, fun k hk => ?_⟩
  · rw [hsent] at hp
    rcases mem_append.mp hp with hp | hp
    · obtain ⟨vain0, hvain0, hplaced⟩ := hs.placed
      obtain ⟨off, hat⟩ := hplaced p hp hh hdata
      rw [hvain0 hclear, List.append_nil] at hat
      exact ⟨off, (hat.append more).append vain⟩
    · exact hout p hp hh hdata
  · rw [hsent]
    by_cases hold : k < s.counted.length
    · obtain ⟨p, hp, hh, off, hat, hin⟩ := hs.carried k hold
      exact ⟨p, mem_append_left _ hp, hh, off, hat.append more, hin⟩
    · rw [length_append] at hk
      obtain ⟨p, hp, hcarry⟩ := hcarried k (by omega) hk
      exact ⟨p, mem_append_right _ hp, hcarry⟩

/-- A connection that is not reset and whose next byte is not the one after those counted. -/
lemma not_sending {b : ℕ} {counted : List UInt8} (hreset : (t'.conns h).reset = false)
    (hnext : (t'.conns h).sndNxt = (isn + 1 + b) % word32) (hlt : counted.length < b)
    (hle : b < counted.length + word32) : ¬ Sending isn h ⟨t', counted⟩ := by
  intro hs
  rcases hs.next with hr | hn
  · rw [hreset] at hr
    cases hr
  · have heq : (isn + 1 + b) % word32 = (isn + 1 + counted.length) % word32 := hnext.symm.trans hn
    simp only [word32] at heq hle
    omega

/-- A call on an established connection keeps the counted bytes contiguous exactly when its chunks are
answered. -/
lemma Sending.loop_iff (hs : Sending isn h s) {windows : ℕ → Fin 5 → List (Option Segment)}
    (hlen : data.length < word32) (hb : Busy mine h s.table) :
    Sending isn h ⟨(sendLoop h windows data.length 0 0 data s.table).1,
        s.counted ++ data.take (sendLoop h windows data.length 0 0 data s.table).2.counted⟩ ↔
      ChunksAnswered mine windows data.length data.length 0 (s.table.conns h).sndNxt data.length
        (s.table.conns h).sndUna := by
  have hnext : (s.table.conns h).sndNxt = (isn + 1 + s.counted.length) % word32 :=
    hs.next.resolve_left (by rw [hb.reset]; decide)
  have hdrop : (s.counted ++ data).drop s.counted.length = data := drop_left
  obtain ⟨out, hsent, hout, hend⟩ :=
    sendLoop_ends windows data.length 0 0 hb le_rfl hnext hdrop
  generalize hr : sendLoop h windows data.length 0 0 data s.table = r at hsent hend ⊢
  obtain ⟨t', reply⟩ := r
  cases hend with
  | reset hreset hanswered =>
    -- nothing is counted, and the data was sent in vain
    refine iff_of_true ?_ hanswered
    refine hs.extend data hsent hb.reset ?_ (.inl hreset) (fun hno => ?_) ?_
    · rw [SendReply.counted, List.take_zero, List.append_nil]
      exact hout
    · rw [hreset] at hno
      cases hno
    · intro k hk hk'
      rw [SendReply.counted, List.take_zero] at hk'
      exact absurd hk' (by simpa using hk)
  | all hreset hsnd hanswered hcarried =>
    rw [hanswered, SendReply.counted, zero_add, toInt32_toNat _ hlen]
    by_cases hsmall : data.length < 2147483648
    · rw [if_pos hsmall, take_length]
      refine iff_of_true (hs.extend [] hsent hb.reset ?_ (.inr ?_) (fun _ => rfl)
        hcarried) hsmall
      · rw [List.append_nil]
        exact hout
      · rw [length_append]
        exact hsnd
    · rw [if_neg hsmall, List.take_zero, List.append_nil]
      refine iff_of_false (not_sending hreset hsnd ?_ ?_) hsmall
      · omega
      · omega
  | gaveUp done more hreset hanswered hmore hle hsnd =>
    have hcounted : SendReply.counted (if 0 < 0 + done then .count (toInt32 (0 + done))
        else .failed .ETIMEDOUT) ≤ done := by
      split_ifs
      · rw [SendReply.counted, toInt32_toNat _ (by omega)]
        split_ifs <;> omega
      · exact zero_le done
    change Sending isn h ⟨t', s.counted ++ data.take (SendReply.counted (if 0 < 0 + done then
      .count (toInt32 (0 + done)) else .failed .ETIMEDOUT))⟩ ↔ _
    generalize SendReply.counted _ = n at hcounted ⊢
    refine iff_of_false (not_sending hreset hsnd ?_ ?_) hanswered
    · rw [length_append, length_take]
      omega
    · rw [length_append, length_take]
      omega

/-- One operation keeps the counted bytes contiguous exactly when no chunk goes unanswered. -/
theorem sending_iff (hs : Sending isn h s) {op : SendOp} (hop : op.Allowed h s) :
    Sending isn h (s.exec h op).1 ↔ op.Answered h s := by
  cases op with
  | arrive seg => exact iff_of_true (hs.quiet (Quiet.tcpInput s.table seg)) trivial
  | other h' r => exact iff_of_true (hs.quiet (Quiet.set_other hop r)) trivial
  | recv len =>
    refine iff_of_true ?_ trivial
    cases hready : (s.table.conns h).recvReady len with
    | none =>
      simp only [Sender.exec, hready]
      exact hs
    | some r =>
      simp only [Sender.exec, hready]
      exact hs.quiet (Quiet.recvReady hready)
  | send data windows =>
    simp only [Sender.exec, netTcpSend, live_eq, SendOp.Answered]
    by_cases hused : (s.table.conns h).used = true
    · simp only [if_pos hused]
      by_cases hreset : (s.table.conns h).reset = true
      · simp only [if_pos hreset]
        exact iff_of_true (hs.take_zero data) (.inr (.inl hreset))
      by_cases hstate : (s.table.conns h).state = .established
      · have hb : Busy (fun seg => decide (s.table.find seg = some h)) h s.table :=
          ⟨fun seg => decide_eq_true_iff, by simpa using hreset, hstate⟩
        simp only [if_neg hreset, hstate, ne_eq, not_true_eq_false, if_false]
        rw [hs.loop_iff hop hb]
        simp [hused, hreset]
      · simp only [if_neg hreset, if_pos hstate]
        exact iff_of_true (hs.take_zero data) (.inr (.inr (.inl hstate)))
    · simp only [if_neg hused]
      exact iff_of_true (hs.take_zero data) (.inl (by simpa using hused))

/-- On a connection that was just opened, as long as no chunk of a call goes unanswered, every byte
counted so far lies at its sequence number; and an operation breaks this exactly when it leaves a
chunk unanswered. -/
theorem run_sending {s₀ : Sender} {ls : List (SendOp × Option SendReply)}
    (hnext : (s₀.table.conns h).sndNxt = (isn + 1) % word32) (hcounted : s₀.counted = [])
    (hsent : s₀.table.sent = [])
    (hrun : Run (execStep (fun s op => op.Allowed h s ∧ op.Answered h s) (Sender.exec h)) s₀ ls s) :
    Sending isn h s ∧ ∀ op, op.Allowed h s → (Sending isn h (s.exec h op).1 ↔ op.Answered h s) := by
  have hstart : Sending isn h s₀ := by
    refine ⟨.inr ?_, ⟨[], fun _ => rfl, fun p hp => ?_⟩, fun k hk => ?_⟩
    · rw [hcounted]
      exact hnext
    · rw [hsent] at hp
      exact absurd hp not_mem_nil
    · rw [hcounted] at hk
      exact absurd hk (not_lt_zero k)
  have hs : Sending isn h s := by
    refine hrun.invariant (fun s l s' hs hstep => ?_) hstart
    have := (sending_iff hs hstep.1.1).mpr hstep.1.2
    rwa [hstep.2] at this
  exact ⟨hs, fun op hop => sending_iff hs hop⟩

end Calls

/-- A connection to port 80 that was just opened with the initial sequence number 0, and nothing
sent on it. -/
def firstSender : Sender where
  table := ⟨true, fun h => if h = 0 then { justOpened with sndNxt := 1, sndUna := 1 } else .zero,
    1000, []⟩
  counted := []

/-- The peer acknowledges everything before a sequence number. -/
def peerAck (ack : ℕ) : Segment := ⟨1, 80, 1000, 4294967295, ack, { ack := true }, 65535, []⟩

/-- The first attempt is lost, the second is acknowledged. -/
def secondTry (ack : ℕ) : ℕ → Fin 5 → List (Option Segment) :=
  fun _ i => if i = 1 then [none, some (peerAck ack)] else [none]

/-- No attempt is answered. -/
def noAnswer : ℕ → Fin 5 → List (Option Segment) := fun _ _ => [none]

theorem run_sending_secondTry :
    Sending 0 0 (play (Sender.exec 0) firstSender
      [.send [1, 2] (secondTry 3), .send [3] (secondTry 4)]) := by
  have hlegal : Legal (fun s op => SendOp.Allowed 0 s op ∧ SendOp.Answered 0 s op) (Sender.exec 0)
      firstSender [.send [1, 2] (secondTry 3), .send [3] (secondTry 4)] := by
    refine ⟨⟨(by decide : 2 < word32), .inr (.inr (.inr ?_))⟩,
      ⟨(by decide : 1 < word32), .inr (.inr (.inr ?_))⟩, trivial⟩
    · exact (by decide : 2 < 2147483648)
    · exact (by decide : 1 < 2147483648)
  exact (run_sending rfl rfl rfl hlegal.run).1

/-- The first byte is never acknowledged and the call times out, with `snd_nxt` past the byte. The
next call's byte is the first to be counted, and it is sent with the sequence number of the second. -/
theorem not_sending_noAnswer :
    Run (execStep (SendOp.Allowed 0) (Sender.exec 0)) firstSender
        (labels (Sender.exec 0) firstSender [.send [1] noAnswer, .send [2] (secondTry 3)])
        (play (Sender.exec 0) firstSender [.send [1] noAnswer, .send [2] (secondTry 3)]) ∧
      (labels (Sender.exec 0) firstSender [.send [1] noAnswer, .send [2] (secondTry 3)]).map Prod.snd
        = [some (.failed .ETIMEDOUT), some (.count 1)] ∧
      ¬ Sending 0 0 (play (Sender.exec 0) firstSender
        [.send [1] noAnswer, .send [2] (secondTry 3)]) := by
  refine ⟨Legal.run ⟨(by decide : 1 < word32), (by decide : 1 < word32), trivial⟩,
    by decide, fun hs => ?_⟩
  exact absurd hs.next (by decide)

end Wos.Net
