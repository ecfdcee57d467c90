import Wos.Net.Wifi

/-!
# What the four-way handshake proves

`do_handshake` takes message three to be the access point's because its integrity code verifies
under the key that only the holders of the master key can derive. But the station has signed with
that key too, in message two. Nothing else in message three is looked at before the handshake
succeeds: not the flags, not the nonce, not the replay counter. So message two, sent back to the
station, is accepted as message three.

The adversary is symbolic: it chooses every frame that is received, and the only valid codes it can
present are those the station has computed. A `Channel` says which frames it may send, once it has
heard what the station sent.

## Main definitions

* `Unforged`, `Keyless`: what such an adversary can present;
* `Channel`, `HandshakeAir.Within`: what it may send;
* `Opens`, `SendsBack`: a frame with a message one, and one with a message of the station's own.

## Main results

* `take_eapolLen_eq_iff`: a message that is received is one that was sent exactly if its code and
  what the code covers are;
* `handshake_keyless_iff`: the handshake never succeeds, exactly if the adversary may not send a
  message of the station's back to it.
-/

namespace Wos.Net

open List Option

variable {c : Crypto} {w : Wifi} {net : WifiNetwork} {air : HandshakeAir}

/-! ## The adversary -/

/-- The integrity code of a received message verifies. -/
def Verifies (c : Crypto) (w : Wifi) (m : List UInt8) : Prop :=
  keyMicOf m = (c.hmac w.keys.kck (signedPart m)).take 16

/-- The station has signed these bytes with its present key. -/
def Wifi.Signed (w : Wifi) (data : List UInt8) : Prop :=
  ∃ frame, Sent.eapol frame w.keys.kck data ∈ w.sent

/-- A message that only verifies if the station itself has signed what it says. -/
def Unforged (c : Crypto) (w : Wifi) (m : List UInt8) : Prop :=
  Verifies c w m → w.Signed (signedPart m)

/-- The station after message two of a handshake. -/
def Wifi.answered (c : Crypto) (w : Wifi) (net : WifiNetwork) (snonce m1 : List UInt8) : Wifi :=
  Wifi.sendTwo c { w with state := .handshake } net.bssid m1 snonce

/-- Every frame that the station receives is from a party without the master key. -/
def Keyless (c : Crypto) (w : Wifi) (net : WifiNetwork) (air : HandshakeAir) : Prop :=
  ∀ m1, recvKey net.bssid air.heard1 = some m1 →
    ∀ rx ∈ air.heard3, ∀ m3, eapolBody net.bssid rx.bytes = some m3 →
      Unforged c (w.answered c net air.snonce m1) m3

/-- The frames that may be sent to the station, given what it has sent. -/
abbrev Channel := List Sent → List UInt8 → Prop

/-- What the station receives may be sent to it, and its nonce has the size of a nonce. -/
structure HandshakeAir.Within (air : HandshakeAir) (c : Crypto) (w : Wifi) (net : WifiNetwork)
    (may : Channel) : Prop where
  snonce : air.snonce.length = 32
  /-- While it waits for message one. -/
  one : ∀ rx ∈ air.heard1, may w.sent rx.bytes
  /-- While it waits for message three, when its message two has been heard. -/
  three : ∀ m1, recvKey net.bssid air.heard1 = some m1 → ∀ rx ∈ air.heard3,
    may (w.answered c net air.snonce m1).sent rx.bytes

/-- A frame from the access point's address that holds a key message. -/
def Carries (bssid frame m : List UInt8) : Prop :=
  eapolBody bssid frame = some m ∧ eapolHdrLen + eapolKeyLen ≤ m.length

/-- It is a message one that the station answers. -/
def Opens (bssid frame m : List UInt8) : Prop :=
  Carries bssid frame m ∧ keyInfoOf m % 8 = keyVersionSha1Aes

/-- The station has sent this key message, signed with its present key. -/
def Wifi.HasSent (w : Wifi) (message : List UInt8) : Prop :=
  ∃ frame data, Sent.eapol frame w.keys.kck data ∈ w.sent ∧ frame.drop (hdrLen + 8) = message

/-- A frame that sends a key message of the station's own back to it, with any padding. -/
def SendsBack (w : Wifi) (bssid frame : List UInt8) : Prop :=
  ∃ m, Carries bssid frame m ∧ w.HasSent (m.take (eapolLen m))

/-- The log of what was sent is that of `send_eapol`. -/
def Wifi.Logged (c : Crypto) (w : Wifi) : Prop :=
  ∀ frame kck data, Sent.eapol frame kck data ∈ w.sent →
    ∃ keyInfo replayCounter nonce keyData, replayCounter.length = 8 ∧ nonce.length = 32 ∧
      data = eapolMessage keyInfo replayCounter nonce (List.replicate 16 0) keyData ∧
      frame.drop (hdrLen + 8) =
        eapolMessage keyInfo replayCounter nonce ((c.hmac kck data).take 16) keyData

/-! ## When a handshake succeeds -/

/-- The last part succeeds if and only if message 3 verifies and the driver takes the answer and the
key. -/
lemma handshakeEnd_ok_iff (m3 : List UInt8) :
    (∃ gtk, (handshakeEnd c w net air m3).2 = .ok gtk) ↔
      Verifies c w m3 ∧ air.takes4 = true ∧ air.takesKey = true := by
  unfold handshakeEnd Verifies
  split
  · rename_i hmic
    exact iff_of_false (fun ⟨_, h⟩ => by cases h) fun h => hmic h.1
  rename_i hmic
  split
  · rename_i hfour
    exact iff_of_false (fun ⟨_, h⟩ => by cases h) fun h => hfour h.2.1
  rename_i hfour
  split
  · rename_i hkey
    exact iff_of_false (fun ⟨_, h⟩ => by cases h) fun h => hkey h.2.2
  · rename_i hkey
    exact iff_of_true ⟨_, rfl⟩ ⟨not_not.mp hmic, not_not.mp hfour, not_not.mp hkey⟩

/-- A handshake succeeds exactly if both messages arrive, the second of them verifies, and the
adapter takes what it is given. -/
lemma doHandshake_ok_iff :
    (∃ gtk, (doHandshake c w net air).2 = .ok gtk) ↔
      ∃ m1 m3, recvKey net.bssid air.heard1 = some m1 ∧ keyInfoOf m1 % 8 = keyVersionSha1Aes ∧
        recvKey net.bssid air.heard3 = some m3 ∧ Verifies c (w.answered c net air.snonce m1) m3 ∧
        air.takes2 = true ∧ air.takes4 = true ∧ air.takesKey = true := by
  unfold doHandshake
  cases hone : recvKey net.bssid air.heard1 with
  | none =>
    refine iff_of_false (fun ⟨_, h⟩ => by cases h) ?_
    rintro ⟨m1, m3, h, -⟩
    cases h
  | some m1 =>
    dsimp only
    by_cases hversion : keyInfoOf m1 % 8 = keyVersionSha1Aes
    · rw [if_neg (not_not.mpr hversion)]
      by_cases htwo : air.takes2 = true
      · rw [if_neg (not_not.mpr htwo)]
        cases hthree : recvKey net.bssid air.heard3 with
        | none =>
          refine iff_of_false (fun ⟨_, h⟩ => by cases h) ?_
          rintro ⟨_, m3, -, -, h, -⟩
          cases h
        | some m3 =>
          refine (handshakeEnd_ok_iff m3).trans ⟨?_, ?_⟩
          · rintro ⟨hverifies, htakes⟩
            exact ⟨m1, m3, rfl, hversion, rfl, hverifies, htwo, htakes⟩
          rintro ⟨_, _, h1, -, h3, hverifies, -, htakes⟩
          obtain rfl := some.inj h1
          obtain rfl := some.inj h3
          exact ⟨hverifies, htakes⟩
      · rw [if_pos htwo]
        refine iff_of_false (fun ⟨_, h⟩ => by cases h) ?_
        rintro ⟨_, _, -, -, -, -, h, -⟩
        exact htwo h
    · rw [if_pos hversion]
      refine iff_of_false (fun ⟨_, h⟩ => by cases h) ?_
      rintro ⟨_, _, h1, h, -⟩
      obtain rfl := some.inj h1
      exact hversion h

variable {bssid message : List UInt8}

/-- The message taken for a key message is one of those received. -/
lemma recvKey_some {heard : List Rx} {m : List UInt8} (h : recvKey bssid heard = some m) :
    ∃ rx ∈ heard, Carries bssid rx.bytes m := by
  obtain ⟨hfound, hlen⟩ := filter_eq_some_iff.mp h
  obtain ⟨rx, hmem, hbody⟩ := exists_of_findSome?_eq_some hfound
  exact ⟨rx, hmem, hbody, by simpa using hlen⟩

lemma recvKey_single {rx : Rx} {m : List UInt8} (h : Carries bssid rx.bytes m) :
    recvKey bssid [rx] = some m := by
  rw [recvKey, recvEapol, findSome?_cons, h.1]
  exact filter_eq_some_iff.mpr ⟨rfl, decide_eq_true h.2⟩

/-! ## What is sent and what is received -/

/-- The part of a key message before its integrity code. -/
def beforeMic (keyInfo : ℕ) (replayCounter nonce keyData : List UInt8) : List UInt8 :=
  [2, 3] ++ putBe16 (eapolKeyLen + keyData.length) ++ [2] ++ putBe16 keyInfo ++ putBe16 16
    ++ replayCounter ++ nonce ++ List.replicate 32 0

/-- The part after it. -/
def afterMic (keyData : List UInt8) : List UInt8 := putBe16 keyData.length ++ keyData

lemma eapolMessage_eq (keyInfo : ℕ) (replayCounter nonce mic keyData : List UInt8) :
    eapolMessage keyInfo replayCounter nonce mic keyData =
      beforeMic keyInfo replayCounter nonce keyData ++ (mic ++ afterMic keyData) := by
  simp only [eapolMessage, beforeMic, afterMic, append_assoc]

section Message

variable {keyInfo : ℕ} {replayCounter nonce mic keyData : List UInt8}
  (hreplay : replayCounter.length = 8) (hnonce : nonce.length = 32)

include hreplay hnonce

lemma length_beforeMic : (beforeMic keyInfo replayCounter nonce keyData).length = micPos := by
  simp [beforeMic, putBe16, hreplay, hnonce, micPos]

/-- Bytes with a code in its place are a key message exactly if they have its code, and agree with
it before the code and after it. -/
lemma take_code_eq_iff {before code after : List UInt8} {len : ℕ} (hbefore : before.length = micPos)
    (hcode : code.length = 16) (hmic : mic.length = 16) :
    (before ++ (code ++ after)).take len = eapolMessage keyInfo replayCounter nonce mic keyData ↔
      (micPos + 16 ≤ len ∧ before = beforeMic keyInfo replayCounter nonce keyData ∧
        after.take (len - (micPos + 16)) = afterMic keyData) ∧ code = mic := by
  have hlength : (beforeMic keyInfo replayCounter nonce keyData).length = micPos :=
    length_beforeMic hreplay hnonce
  have hsplit (hlen : micPos + 16 ≤ len) : (before ++ (code ++ after)).take len =
      before ++ (code ++ after.take (len - (micPos + 16))) := by
    rw [take_append, take_append, take_of_length_le (by omega), take_of_length_le (by omega),
      hbefore, hcode, Nat.sub_sub]
  rw [eapolMessage_eq]
  constructor
  · intro h
    have hlen : micPos + 16 ≤ len := by
      have hlong := congrArg length h
      simp only [length_take, length_append, hmic, hlength] at hlong
      omega
    rw [hsplit hlen] at h
    obtain ⟨hbefore', hrest⟩ := append_inj h (hbefore.trans hlength.symm)
    obtain ⟨hcode', hafter⟩ := append_inj hrest (hcode.trans hmic.symm)
    exact ⟨⟨hlen, hbefore', hafter⟩, hcode'⟩
  · rintro ⟨⟨hlen, rfl, hafter⟩, rfl⟩
    rw [hsplit hlen, hafter]

/-- A key message that arrives is one that was sent exactly if its code is the same and so is what
the code covers. -/
theorem take_eapolLen_eq_iff {m : List UInt8} (hm : eapolHdrLen + eapolKeyLen ≤ m.length)
    (hmic : mic.length = 16) :
    m.take (eapolLen m) = eapolMessage keyInfo replayCounter nonce mic keyData ↔
      signedPart m = eapolMessage keyInfo replayCounter nonce (replicate 16 0) keyData ∧
        keyMicOf m = mic := by
  have hbefore : (m.take micPos).length = micPos :=
    length_take_of_le (le_trans (by decide) hm)
  have hfield : (keyMicOf m).length = 16 := by
    rw [keyMicOf, field, length_take, length_drop]
    simp only [eapolHdrLen, eapolKeyLen, micPos] at *
    omega
  have hparts : m.take micPos ++ (keyMicOf m ++ m.drop (micPos + 16)) = m := by
    rw [keyMicOf, field, ← drop_drop, take_append_drop, take_append_drop]
  have hreceived : m.take (eapolLen m) =
      (m.take micPos ++ (keyMicOf m ++ m.drop (micPos + 16))).take (eapolLen m) := by rw [hparts]
  rw [hreceived, signedPart, append_assoc, take_code_eq_iff hreplay hnonce hbefore hfield hmic,
    take_code_eq_iff hreplay hnonce hbefore length_replicate length_replicate, eq_self, and_true]

end Message

/-- The message of a frame comes after its headers. -/
lemma drop_headers {addr1 addr2 addr3 : List UInt8} (h1 : addr1.length = 6) (h2 : addr2.length = 6)
    (h3 : addr3.length = 6) (fc sequence : ℕ) :
    (ieeeHdr fc addr1 addr2 addr3 sequence ++ llcSnap ++ putBe16 ethPEapol ++ message).drop
      (hdrLen + 8) = message := by
  apply drop_left'
  simp [ieeeHdr, putLe16, putBe16, llcSnap, h1, h2, h3, hdrLen]

/-- What `send_eapol` sends is logged as it was made. -/
lemma Wifi.Logged.sendEapol {keyInfo : ℕ} {replayCounter nonce keyData : List UInt8}
    (h : w.Logged c) (hbssid : bssid.length = 6) (hmac : w.ourMac.length = 6)
    (hreplay : replayCounter.length = 8) (hnonce : nonce.length = 32) :
    (w.sendEapol c bssid keyInfo replayCounter nonce keyData).Logged c := by
  intro frame kck data hmem
  rcases mem_append.mp hmem with hold | hnew
  · exact h frame kck data hold
  obtain ⟨rfl, rfl, rfl⟩ := Sent.eapol.inj (mem_singleton.mp hnew)
  exact ⟨keyInfo, replayCounter, nonce, keyData, hreplay, hnonce, rfl,
    drop_headers hbssid hmac hbssid _ _⟩

lemma Wifi.Logged.answered {snonce m1 : List UInt8} (h : w.Logged c) (hbssid : net.bssid.length = 6)
    (hmac : w.ourMac.length = 6) (hm1 : eapolHdrLen + eapolKeyLen ≤ m1.length)
    (hsnonce : snonce.length = 32) : (w.answered c net snonce m1).Logged c := by
  have hreplay : (replayCounterOf m1).length = 8 := by
    rw [replayCounterOf, field, length_take, length_drop]
    simp only [eapolHdrLen, eapolKeyLen] at hm1
    omega
  exact Wifi.Logged.sendEapol h hbssid hmac hreplay hsnonce

section SendsBack

variable (hcode : ∀ key data, 16 ≤ (c.hmac key data).length)

include hcode

/-- A message is one that the station has sent exactly if it verifies and the station has signed
what it says. -/
lemma hasSent_iff {m : List UInt8} (h : w.Logged c) (hm : eapolHdrLen + eapolKeyLen ≤ m.length) :
    w.HasSent (m.take (eapolLen m)) ↔ w.Signed (signedPart m) ∧ Verifies c w m := by
  have hlength (data : List UInt8) : ((c.hmac w.keys.kck data).take 16).length = 16 :=
    length_take_of_le (hcode _ _)
  constructor
  · rintro ⟨frame, data, hmem, hmessage⟩
    obtain ⟨_, _, _, _, hreplay, hnonce, rfl, hframe⟩ := h frame _ data hmem
    obtain ⟨hsigned, hmic⟩ :=
      (take_eapolLen_eq_iff hreplay hnonce hm (hlength _)).mp (hmessage.symm.trans hframe)
    rw [Verifies, hsigned]
    exact ⟨⟨frame, hmem⟩, hmic⟩
  · rintro ⟨⟨frame, hmem⟩, hverifies⟩
    obtain ⟨_, _, _, _, hreplay, hnonce, hdata, hframe⟩ := h frame _ _ hmem
    refine ⟨frame, _, hmem, hframe.trans ?_⟩
    exact ((take_eapolLen_eq_iff hreplay hnonce hm (hlength _)).mpr ⟨hdata, hverifies⟩).symm

/-- The air of a party that sends one frame for message one and one for message three. -/
def relay (one three snonce : List UInt8) : HandshakeAir :=
  ⟨[⟨one, 0⟩], [⟨three, 0⟩], snonce, true, true, true⟩

/-- A message of the station's own that is sent back to it completes the handshake. -/
lemma relay_succeeds {one m1 snonce three : List UInt8} (hone : Opens net.bssid one m1)
    (hlog : (w.answered c net snonce m1).Logged c)
    (hback : SendsBack (w.answered c net snonce m1) net.bssid three) :
    Keyless c w net (relay one three snonce) ∧
      ∃ gtk, (doHandshake c w net (relay one three snonce)).2 = .ok gtk := by
  obtain ⟨m3, hthree, hsent⟩ := hback
  obtain ⟨hsigned, hverifies⟩ := (hasSent_iff hcode hlog hthree.2).mp hsent
  have hreceived : recvKey net.bssid (relay one three snonce).heard1 = some m1 :=
    recvKey_single hone.1
  constructor
  · intro m1' hm1' rx hrx m3' hm3' _
    have hm1 : m1 = m1' := some.inj (hreceived.symm.trans hm1')
    rw [mem_singleton.mp hrx] at hm3'
    have hm3 : m3 = m3' := some.inj (hthree.1.symm.trans hm3')
    rw [← hm1, ← hm3]
    exact hsigned
  · exact doHandshake_ok_iff.mpr
      ⟨m1, m3, hreceived, hone.2, recvKey_single hthree, hverifies, rfl, rfl, rfl⟩

/-- Against a party without the master key the handshake never succeeds, exactly if this party may
not send a message of the station's own back to it, after a message one that it answers. -/
theorem handshake_keyless_iff (may : Channel) (hbssid : net.bssid.length = 6)
    (hmac : w.ourMac.length = 6) (hlog : w.Logged c) :
    (∀ air : HandshakeAir, air.Within c w net may → Keyless c w net air →
      ∀ gtk, (doHandshake c w net air).2 ≠ .ok gtk) ↔
    ∀ one m1 snonce three, may w.sent one → Opens net.bssid one m1 → snonce.length = 32 →
      may (w.answered c net snonce m1).sent three →
        ¬ SendsBack (w.answered c net snonce m1) net.bssid three := by
  constructor
  · intro hfails one m1 snonce three hmayOne hone hsnonce hmayThree hback
    have hlog2 := hlog.answered hbssid hmac hone.1.2 hsnonce
    obtain ⟨hkeyless, gtk, hok⟩ := relay_succeeds hcode hone hlog2 hback
    refine hfails _ ⟨hsnonce, ?_, ?_⟩ hkeyless gtk hok
    · intro rx hrx
      rw [mem_singleton.mp hrx]
      exact hmayOne
    · intro m1' hm1' rx hrx
      have hm1 : m1 = m1' := some.inj ((recvKey_single hone.1).symm.trans hm1')
      rw [mem_singleton.mp hrx, ← hm1]
      exact hmayThree
  · intro hnever air hwithin hkeyless gtk hok
    obtain ⟨m1, m3, hone, hversion, hthree, hverifies, -⟩ := doHandshake_ok_iff.mp ⟨gtk, hok⟩
    obtain ⟨rx1, hrx1, hcarries1⟩ := recvKey_some hone
    obtain ⟨rx3, hrx3, hcarries3⟩ := recvKey_some hthree
    -- the code verifies, so the station has signed what the message says, and has sent it
    have hsigned := hkeyless m1 hone rx3 hrx3 m3 hcarries3.1 hverifies
    have hlog2 := hlog.answered hbssid hmac hcarries1.2 hwithin.snonce
    have hsent := (hasSent_iff hcode hlog2 hcarries3.2).mpr ⟨hsigned, hverifies⟩
    exact hnever rx1.bytes m1 air.snonce rx3.bytes (hwithin.one rx1 hrx1) ⟨hcarries1, hversion⟩
      hwithin.snonce (hwithin.three m1 hone rx3 hrx3) ⟨m3, hcarries3, hsent⟩

end SendsBack

/-! ## A handshake with no access point -/

/-- A data frame that says it is from the access point and carries a key message. -/
def apFrame (bssid message : List UInt8) : Rx :=
  ⟨ieeeHdr (fcMake fcTypeData fcSubData) (List.replicate 6 0) bssid bssid 0 ++ llcSnap
    ++ putBe16 ethPEapol ++ message, 0⟩

/-- The message in such a frame is the one that `recv_eapol` takes. -/
lemma eapolBody_apFrame (hbssid : bssid.length = 6) (hlen : message.length ≤ 512)
    : eapolBody bssid (apFrame bssid message).bytes = some message := by
  match bssid, hbssid with
  | [b0, b1, b2, b3, b4, b5], _ =>
    have hfc : getLe16 (apFrame [b0, b1, b2, b3, b4, b5] message).bytes 0 = 8 := rfl
    have hpos : bodyPos (apFrame [b0, b1, b2, b3, b4, b5] message).bytes = hdrLen := by
      rw [bodyPos, hfc]
      exact if_neg (by decide)
    have hbytes : 32 ≤ (apFrame [b0, b1, b2, b3, b4, b5] message).bytes.length := by
      simp [apFrame, ieeeHdr, putLe16, putBe16, llcSnap]
    rw [eapolBody, hpos, hfc, if_pos ⟨hbytes, rfl, rfl, hbytes, rfl, rfl⟩]
    congr 1
    exact take_of_length_le hlen

/-- Hash functions that hide nothing: the code of some bytes is the key and the bytes. -/
def symbolicCrypto : Crypto where
  pbkdf2 password ssid := password ++ ssid
  prf pmk data := pmk ++ data
  hmac kck data := kck ++ data ++ List.replicate 16 0
  unwrap _ _ := none

lemma symbolicCrypto_hmac (key data : List UInt8) : 16 ≤ (symbolicCrypto.hmac key data).length := by
  simp only [symbolicCrypto, length_append, length_replicate]
  omega

/-- A protected network. -/
def someNetwork : WifiNetwork := ⟨ascii "home", [2, 0, 0, 0, 0, 1], 1, -40, .wpa2, false, true⟩

/-- The flag of a message that asks for an answer, which the station never sets. -/
def keyInfoAck : ℕ := 0x0080

/-- A message one. -/
def someOne : List UInt8 :=
  eapolMessage (keyVersionSha1Aes + keyInfoPairwise + keyInfoAck) (List.replicate 8 0)
    (List.replicate 32 7) (List.replicate 16 0) []

lemma opens_someOne : Opens someNetwork.bssid (apFrame someNetwork.bssid someOne).bytes someOne :=
  ⟨⟨eapolBody_apFrame rfl (by decide), by decide⟩, by decide⟩

/-- The channel of a party that only sends key messages which ask for an answer. -/
def asksAnswer (bssid : List UInt8) : Channel :=
  fun _ frame => ∀ m, eapolBody bssid frame = some m → (keyInfoOf m).testBit 7 = true

/-- The flags of a message are read back as they were sent. -/
lemma keyInfoOf_eq {m : List UInt8} {n keyInfo : ℕ} {replayCounter nonce mic keyData : List UInt8}
    (h : m.take n = eapolMessage keyInfo replayCounter nonce mic keyData) :
    keyInfoOf m = keyInfo % 65536 := by
  have hbyte {i : ℕ} {b : UInt8}
      (hb : (eapolMessage keyInfo replayCounter nonce mic keyData)[i]? = some b) :
      m.getD i 0 = b := by
    rw [← h, getElem?_take] at hb
    split at hb
    · rw [getD_eq_getElem?_getD, hb, getD_some]
    · cases hb
  have hhigh : m.getD 5 0 = leByte keyInfo 1 := hbyte rfl
  have hlow : m.getD 6 0 = leByte keyInfo 0 := hbyte rfl
  rw [keyInfoOf, getBe16, hhigh, hlow, leByte_toNat, leByte_toNat]
  omega

theorem handshake_keyless_iff_asksAnswer :
    asksAnswer someNetwork.bssid [] (apFrame someNetwork.bssid someOne).bytes ∧
      ∀ air : HandshakeAir,
        air.Within symbolicCrypto Wifi.zero someNetwork (asksAnswer someNetwork.bssid) →
        Keyless symbolicCrypto Wifi.zero someNetwork air →
          ∀ gtk, (doHandshake symbolicCrypto Wifi.zero someNetwork air).2 ≠ .ok gtk := by
  constructor
  · intro m hm
    rw [opens_someOne.1.1] at hm
    obtain rfl := some.inj hm
    decide
  have hlog : Wifi.zero.Logged symbolicCrypto := by simp [Wifi.Logged, Wifi.zero]
  refine (handshake_keyless_iff symbolicCrypto_hmac _ rfl rfl hlog).mpr ?_
  rintro one m1 snonce three - - - hthree ⟨m3, hcarries, frame, data, hmem, hframe⟩
  obtain ⟨rfl, -, -⟩ := Sent.eapol.inj (mem_singleton.mp hmem)
  have hinfo := keyInfoOf_eq (hframe.symm.trans (drop_headers rfl rfl rfl _ _))
  have hack := hthree m3 hcarries.1
  rw [hinfo] at hack
  exact absurd hack (by decide)

/-- The message two that answers it. -/
def someTwo : List UInt8 :=
  eapolMessage (keyVersionSha1Aes + keyInfoPairwise + keyInfoMic) (List.replicate 8 0)
    (List.replicate 32 1) (List.replicate 16 0) ourRsnIe

lemma sendsBack_someTwo :
    SendsBack (Wifi.zero.answered symbolicCrypto someNetwork (replicate 32 1) someOne)
      someNetwork.bssid (apFrame someNetwork.bssid someTwo).bytes :=
  ⟨someTwo, ⟨eapolBody_apFrame rfl (by decide), by decide⟩, _, _, mem_singleton.mpr rfl, by decide⟩

/-- A party without the master key completes a handshake. -/
theorem not_handshake_keyless :
    ¬ ∀ (c : Crypto) (w : Wifi) (net : WifiNetwork) (air : HandshakeAir), Keyless c w net air →
      ∀ gtk, (doHandshake c w net air).2 ≠ .ok gtk := by
  intro hall
  have hlog : (Wifi.zero.answered symbolicCrypto someNetwork (replicate 32 1) someOne).Logged
      symbolicCrypto :=
    Wifi.Logged.answered (by simp [Wifi.Logged, Wifi.zero]) rfl rfl opens_someOne.1.2 rfl
  obtain ⟨hkeyless, gtk, hok⟩ :=
    relay_succeeds symbolicCrypto_hmac opens_someOne hlog sendsBack_someTwo
  exact hall _ _ _ _ hkeyless gtk hok

end Wos.Net
