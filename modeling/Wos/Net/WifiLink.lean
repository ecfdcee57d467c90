import Wos.Base.Machine
import Wos.Net.Wifi

/-!
# What a wireless link carries in the clear

The link to a protected network is encrypted because `keys.valid` is set while `state` is
`WIFI_STATE_CONNECTED`. The two are written by different functions. `wifi_scan` saves the state and
restores it at its end; a deauthentication frame that arrives in between clears `keys.valid` and
the state, and the restored state then says that the link is up. From then on `wifi_netdev_send`
sends in the clear.

That is the only way. From boot, through any calls and any frames, the link stays guarded as long
as no scan on a connected, protected link hears the access point throw the station off.

## Main definitions

* `Wifi.Guarded`, `Sent.Covered`: what is asked of a state and of a frame;
* `WifiOp`, `WifiOp.exec`, `WifiOp.moments`: calls, and the states they go through;
* `ScanBreaks`, `WifiOp.Careful`: the scan that breaks the link.

## Main results

* `moments_safe_iff`: a call keeps the link guarded exactly when it is careful;
* `run_guarded`: so does a run.
-/

namespace Wos.Net

open List

/-! ## What is asked -/

/-- A link to a protected network has its keys. -/
def Wifi.Guarded (w : Wifi) : Prop :=
  w.state = .connected → w.current.security ≠ .open → w.keys.valid = true

/-- A frame of the IP stack for a protected network has the protected bit, and is to be
encrypted. -/
def Sent.Covered : Sent → Prop
  | .data frame encrypt network =>
    network.security ≠ .open → (getLe16 frame 0).testBit 14 = true ∧ encrypt = true
  | _ => True

/-- The link is guarded, and everything sent so far was covered. -/
structure Wifi.Safe (w : Wifi) : Prop where
  guarded : w.Guarded
  covered : ∀ s ∈ w.sent, s.Covered

/-- A call of the system, the driver or the IP stack. -/
inductive WifiOp
  | attach (mac : List UInt8)
  | scan (max : ℕ) (air : ScanAir)
  | connect (ssid password : List UInt8) (air : ConnectAir)
  | disconnect
  | netdev (call : NetdevCall)

/-- The state after a call. -/
def WifiOp.exec (c : Crypto) (w : Wifi) : WifiOp → Wifi
  | .attach mac => wifiAttach w mac
  | .scan max air => (wifiScan w max air).1
  | .connect ssid password air => (wifiConnect c w ssid password air).1
  | .disconnect => (wifiDisconnect w).1
  | .netdev call => netdevCall w call

/-- The states `wifi_connect` goes through once it has a name to look for: when the network has been
looked up, when the link is up, and between the calls of `net_dhcp`. -/
def connectMoments (c : Crypto) (w : Wifi) (ssid password : List UInt8) (air : ConnectAir) :
    List Wifi :=
  match lookup (w.fail "") ssid air.scan with
  | (w, none) => [w]
  | (w, some net) =>
    match wifiLink c w net password air with
    | (w', .error _) => [w, w']
    | (w', .ok ()) => w :: air.dhcp.scanl netdevCall w'

/-- The states in which a call leaves the link, also on its way. -/
def WifiOp.moments (c : Crypto) (w : Wifi) : WifiOp → List Wifi
  | .connect ssid password air =>
    (if w.ops ∧ ssid ≠ [] then connectMoments c w ssid password air else [])
      ++ [(wifiConnect c w ssid password air).1]
  | op => [op.exec c w]

/-- A frame by which the access point throws the station off. -/
def Disconnects (bssid frame : List UInt8) : Prop :=
  hdrLen ≤ frame.length ∧ IsMgmt frame fcSubDeauth fcSubDisassoc ∧ addr2Of frame = bssid

/-- A scan on a connected, protected link, during which the access point throws the station off. -/
structure ScanBreaks (w : Wifi) (air : ScanAir) : Prop where
  ops : w.ops = true
  /-- The driver starts the scan. -/
  start : air.start = .ok ()
  connected : w.state = .connected
  /-- The link is protected. -/
  security : w.current.security ≠ .open
  haveCurrent : w.haveCurrent = true
  /-- A frame that is heard during the scan ends the link. -/
  heard : ∃ rx ∈ air.heard, Disconnects w.current.bssid rx.bytes

/-- A call that makes no such scan. -/
def WifiOp.Careful (w : Wifi) : WifiOp → Prop
  | .scan _ air => ¬ ScanBreaks w air
  | .connect ssid _ air => ssid ≠ [] → findName w.scanTable ssid = none → ¬ ScanBreaks w air.scan
  | _ => True

/-! ## Functions that leave the link as it is -/

/-- Nothing about the link changed, and what was sent was covered. -/
structure SameLink (w w' : Wifi) : Prop where
  ops : w'.ops = w.ops
  state : w'.state = w.state
  current : w'.current = w.current
  haveCurrent : w'.haveCurrent = w.haveCurrent
  /-- The keys are as good as they were. -/
  valid : w'.keys.valid = w.keys.valid
  /-- If all was covered before, all is covered now. -/
  sent : (∀ s ∈ w.sent, s.Covered) → ∀ s ∈ w'.sent, s.Covered

namespace SameLink

variable {w w' w'' : Wifi}

lemma refl (w : Wifi) : SameLink w w := ⟨rfl, rfl, rfl, rfl, rfl, id⟩

lemma trans (h : SameLink w w') (h' : SameLink w' w'') : SameLink w w'' where
  ops := h'.ops.trans h.ops
  state := h'.state.trans h.state
  current := h'.current.trans h.current
  haveCurrent := h'.haveCurrent.trans h.haveCurrent
  valid := h'.valid.trans h.valid
  sent hs := h'.sent (h.sent hs)

lemma safe (h : SameLink w w') (hw : w.Safe) : w'.Safe := by
  refine ⟨?_, h.sent hw.covered⟩
  rw [Wifi.Guarded, h.state, h.current, h.valid]
  exact hw.guarded

lemma fail (h : SameLink w w') (why : String) : SameLink w (w'.fail why) :=
  h.trans ⟨rfl, rfl, rfl, rfl, rfl, id⟩

lemma bump (w : Wifi) : SameLink w w.bump := ⟨rfl, rfl, rfl, rfl, rfl, id⟩

lemma tx (w : Wifi) {frame : Sent} (hframe : frame.Covered) : SameLink w (w.tx frame) := by
  refine ⟨rfl, rfl, rfl, rfl, rfl, fun hs => ?_⟩
  exact forall_mem_append.mpr ⟨hs, forall_mem_singleton.mpr hframe⟩

end SameLink

/-- What one received frame does: it is filed, or it ends the link. -/
lemma rxDispatch_cases (w : Wifi) (rx : Rx) (want : Option (ℕ × ℕ)) :
    (w.haveCurrent = true ∧ Disconnects w.current.bssid rx.bytes ∧
      (rxDispatch w rx want).1 =
        { w with state := .idle, keys := { w.keys with valid := false }, haveCurrent := false }) ∨
    (¬ (w.haveCurrent = true ∧ Disconnects w.current.bssid rx.bytes) ∧
      ∃ table, (rxDispatch w rx want).1 = { w with scanTable := table }) := by
  unfold rxDispatch
  split_ifs with hlen hbeacon hmgmt hours
  · refine .inr ⟨fun h => ?_, _, rfl⟩
    exact absurd h.2.1 (Nat.not_le.mpr hlen)
  · refine .inr ⟨fun h => ?_, ?_⟩
    · -- a beacon is no deauthentication
      obtain ⟨-, ⟨-, hsub⟩, -⟩ := h.2
      obtain ⟨-, hsub'⟩ := hbeacon
      rcases hsub' with hsub' | hsub' <;> rw [hsub'] at hsub <;> revert hsub <;> decide
    · unfold Wifi.scanBeacon
      split_ifs
      · exact ⟨_, rfl⟩
      · exact ⟨_, rfl⟩
  · exact .inl ⟨hours.1, ⟨Nat.not_lt.mp hlen, hmgmt, hours.2⟩, rfl⟩
  · exact .inr ⟨fun h => hours ⟨h.1, h.2.2.2⟩, _, rfl⟩
  · exact .inr ⟨fun h => hmgmt h.2.2.1, _, rfl⟩

variable {w : Wifi}

/-- While no network is current, received frames leave the link alone. -/
lemma SameLink.rxDispatch (hno : w.haveCurrent = false) (rx : Rx)
    (want : Option (ℕ × ℕ)) : SameLink w (Net.rxDispatch w rx want).1 := by
  rcases rxDispatch_cases w rx want with ⟨hhave, -⟩ | ⟨-, table, heq⟩
  · rw [hno] at hhave
    cases hhave
  · rw [heq]
    exact ⟨rfl, rfl, rfl, rfl, rfl, id⟩

lemma SameLink.rxWait (want : ℕ × ℕ) (heard : List Rx) (hno : w.haveCurrent = false) :
    SameLink w (Net.rxWait want heard w).1 := by
  induction heard generalizing w with
  | nil => exact .refl w
  | cons rx rest ih =>
    have hfirst := SameLink.rxDispatch hno rx (some want)
    rw [Net.rxWait]
    split_ifs
    · exact hfirst
    · exact hfirst.trans (ih (hfirst.haveCurrent.trans hno))

/-- A request off the link leaves it alone. -/
lemma SameLink.request (x : Exchange) (frame : List UInt8) (attempts : List Attempt)
    (hno : w.haveCurrent = false) : SameLink w (Net.request x frame attempts w).1 := by
  induction attempts generalizing w with
  | nil => exact (SameLink.refl w).fail _
  | cons a rest ih =>
    have htx : SameLink w (w.tx (.mgmt frame)) := .tx w trivial
    have hwait := htx.trans
      (SameLink.rxWait (fcTypeMgmt, x.subtype) a.heard (htx.haveCurrent.trans hno))
    rw [Net.request]
    split_ifs
    · split
      · rename_i heq
        rw [heq] at hwait
        exact hwait
      · rename_i heq
        rw [heq] at hwait
        exact hwait.trans (ih (hwait.haveCurrent.trans hno))
    · exact htx.fail _

lemma SameLink.exchange (x : Exchange) (pos : ℕ) (frame : List UInt8) (attempts : Fin 3 → Attempt)
    (hno : w.haveCurrent = false) :
    SameLink w (Net.exchange x pos frame attempts w).1 := by
  have hrequest := SameLink.request x frame [attempts 0, attempts 1, attempts 2] hno
  unfold Net.exchange
  split
  · rename_i heq
    rw [heq] at hrequest
    exact hrequest
  rename_i heq
  rw [heq] at hrequest
  split_ifs
  · exact hrequest.fail _
  · exact hrequest.fail _
  · exact hrequest

lemma SameLink.doAuthenticate (net : WifiNetwork) (attempts : Fin 3 → Attempt)
    (hno : w.haveCurrent = false) : SameLink w (Net.doAuthenticate w net attempts).1 := by
  have hexchange : ∀ frame, SameLink w
      (Net.exchange authExchange 4 frame attempts w.bump).1 :=
    fun frame => (SameLink.bump w).trans (.exchange _ _ _ _ hno)
  unfold Net.doAuthenticate
  dsimp only
  split
  · rename_i heq
    exact (congrArg Prod.fst heq) ▸ hexchange _
  · rename_i heq
    exact (congrArg Prod.fst heq) ▸ hexchange _

lemma SameLink.doAssociate (net : WifiNetwork) (isProtected : Bool) (attempts : Fin 3 → Attempt)
    (hno : w.haveCurrent = false) :
    SameLink w (Net.doAssociate w net isProtected attempts).1 := by
  have hexchange : ∀ frame, SameLink w
      (Net.exchange assocExchange 2 frame attempts w.bump).1 :=
    fun frame => (SameLink.bump w).trans (.exchange _ _ _ _ hno)
  unfold Net.doAssociate
  dsimp only
  split
  · rename_i heq
    exact (congrArg Prod.fst heq) ▸ hexchange _
  · rename_i heq
    exact ((congrArg Prod.fst heq) ▸ hexchange _).trans ⟨rfl, rfl, rfl, rfl, rfl, id⟩

lemma SameLink.derivePmk (c : Crypto) (w : Wifi) (net : WifiNetwork) (password : List UInt8) :
    SameLink w (w.derivePmk c net password).1 := by
  unfold Wifi.derivePmk
  split_ifs <;> exact ⟨rfl, rfl, rfl, rfl, rfl, id⟩

lemma SameLink.sendEapol (c : Crypto) (w : Wifi) (bssid : List UInt8) (keyInfo : ℕ)
    (replayCounter nonce keyData : List UInt8) :
    SameLink w (w.sendEapol c bssid keyInfo replayCounter nonce keyData) :=
  (SameLink.bump w).trans (.tx _ trivial)

/-! ## Joining a network -/

/-- From message three on, a handshake leaves the link as it is. -/
lemma SameLink.handshakeEnd (c : Crypto) (w : Wifi) (net : WifiNetwork) (air : HandshakeAir)
    (m3 : List UInt8) : SameLink w (Net.handshakeEnd c w net air m3).1 := by
  unfold Net.handshakeEnd
  split
  · exact (SameLink.refl w).fail _
  split
  · exact (SameLink.sendEapol ..).fail _
  · split
    · exact (SameLink.sendEapol ..).fail _
    · exact SameLink.sendEapol ..

/-- A handshake fails before any key is derived, or goes on from message two. -/
lemma doHandshake_cases (c : Crypto) (w : Wifi) (net : WifiNetwork) (air : HandshakeAir) :
    (SameLink { w with state := .handshake } (doHandshake c w net air).1 ∧
      ∃ e, (doHandshake c w net air).2 = .error e) ∨
    ∃ m1, SameLink (Wifi.sendTwo c { w with state := .handshake } net.bssid m1 air.snonce)
      (doHandshake c w net air).1 := by
  unfold doHandshake
  split
  · exact .inl ⟨(SameLink.refl _).fail _, _, rfl⟩
  rename_i m1 _
  split
  · exact .inl ⟨(SameLink.refl _).fail _, _, rfl⟩
  refine .inr ⟨m1, ?_⟩
  split
  · exact (SameLink.refl _).fail _
  · split
    · exact (SameLink.refl _).fail _
    · exact SameLink.handshakeEnd ..

/-- `wifi_connect` ends a handshake with the keys, or not connected. -/
lemma wifiEnter_safe (c : Crypto) (hsent : ∀ s ∈ w.sent, s.Covered) (net : WifiNetwork)
    (air : HandshakeAir) : (wifiEnter c w net air).1.Safe := by
  unfold wifiEnter
  dsimp only
  split_ifs with hopen
  · have hcases := doHandshake_cases c { w with current := net, haveCurrent := true } net air
    split
    · rename_i heq
      rw [heq] at hcases
      refine ⟨fun h => (by cases h), ?_⟩
      rcases hcases with ⟨hsame, -⟩ | ⟨m1, hsame⟩
      · exact hsame.sent hsent
      · exact hsame.sent ((SameLink.sendEapol ..).sent hsent)
    · rename_i heq
      rw [heq] at hcases
      rcases hcases with ⟨-, e, he⟩ | ⟨m1, hsame⟩
      · cases he
      · refine ⟨fun _ _ => ?_, hsame.sent ((SameLink.sendEapol ..).sent hsent)⟩
        exact hsame.valid
  · exact ⟨fun _ hprotected => absurd hprotected hopen, hsent⟩

/-- Joining sends nothing uncovered. -/
lemma wifiJoin_safe (c : Crypto) (hsent : ∀ s ∈ w.sent, s.Covered) (net : WifiNetwork)
    (air : ConnectAir) : (wifiJoin c w net air).1.Safe := by
  have hidle : ∀ {w' : Wifi}, w'.state = .idle → (∀ s ∈ w'.sent, s.Covered) → w'.Safe := by
    intro w' hstate hcovered
    refine ⟨fun h => ?_, hcovered⟩
    rw [hstate] at h
    cases h
  unfold wifiJoin
  dsimp only
  generalize hstart : ({ w with
    state := .joining, haveCurrent := false, keys := { w.keys with valid := false } } : Wifi) = w1
  have hno : w1.haveCurrent = false := by rw [← hstart]
  have hsent1 : ∀ s ∈ w1.sent, s.Covered := by rwa [← hstart]
  split
  · exact hidle rfl hsent
  split
  · exact hidle rfl hsent
  have hauth := SameLink.doAuthenticate net air.auth hno
  split
  · rename_i heq
    rw [heq] at hauth
    exact hidle rfl (hauth.sent hsent1)
  rename_i heq
  rw [heq] at hauth
  have hassoc := hauth.trans (SameLink.doAssociate net (net.security ≠ .open) air.assoc
    (hauth.haveCurrent.trans hno))
  split
  · rename_i heq
    rw [heq] at hassoc
    exact hidle rfl (hassoc.sent hsent1)
  · rename_i heq
    rw [heq] at hassoc
    exact wifiEnter_safe c (hassoc.sent hsent1) net air.handshake

/-- Neither does the whole of connecting. -/
lemma wifiLink_safe (c : Crypto) (hw : w.Safe) (net : WifiNetwork) (password : List UInt8)
    (air : ConnectAir) : (wifiLink c w net password air).1.Safe := by
  unfold wifiLink
  split
  · exact ((SameLink.refl w).fail _).safe hw
  split_ifs
  · exact ((SameLink.refl w).fail _).safe hw
  · have hpmk := SameLink.derivePmk c w net password
    split
    · rename_i heq
      rw [heq] at hpmk
      exact hpmk.safe hw
    · rename_i heq
      rw [heq] at hpmk
      exact wifiJoin_safe c (hpmk.sent hw.covered) net air
  · exact wifiJoin_safe c hw.covered net air

/-! ## Calls of the IP stack -/

lemma getLe16_putLe16 {v : ℕ} (hv : v < 65536) (rest : List UInt8) :
    getLe16 (putLe16 v ++ rest) 0 = v := by
  change (leByte v 0).toNat + 256 * (leByte v 1).toNat = v
  rw [leByte_toNat, leByte_toNat]
  omega

/-- A frame from the stack is covered, or not sent. -/
lemma netdevSend_safe (hw : w.Safe) (eth : List UInt8) : (netdevSend w eth).1.Safe := by
  unfold netdevSend
  dsimp only
  split
  · exact hw
  rename_i hstate
  split
  · exact hw
  split
  · exact (SameLink.bump w).safe hw
  -- a frame is sent: the link is up, so it has its keys if it needs them
  have hconnected : w.state = .connected := by
    by_contra hno
    exact hstate (.inl hno)
  refine SameLink.safe ?_ hw
  refine (SameLink.bump w).trans (.tx _ fun hprotected => ?_)
  have hkeys : w.keys.valid = true := hw.guarded hconnected hprotected
  refine ⟨?_, hkeys⟩
  simp only [ieeeHdr, append_assoc]
  rw [getLe16_putLe16 (by rw [if_pos hkeys]; decide), if_pos hkeys]
  decide

lemma netdevPoll_safe (hw : w.Safe) (rx : Rx) (cap : ℕ) : (netdevPoll w rx cap).1.Safe := by
  unfold netdevPoll
  dsimp only
  split
  · exact hw
  split
  · split
    · exact ⟨fun h => (by cases h), hw.covered⟩
    · exact hw
  -- a data frame changes nothing
  · split_ifs <;> exact hw

lemma netdevCall_safe (hw : w.Safe) (call : NetdevCall) : (netdevCall w call).Safe := by
  cases call with
  | send eth => exact netdevSend_safe hw eth
  | poll rx cap => exact netdevPoll_safe hw rx cap

/-! ## Scanning -/

/-- What the frames heard in a scan leave of the keys. -/
lemma heard_valid (heard : List Rx) (w : Wifi) :
    (heard.foldl (fun w rx => (rxDispatch w rx none).1) w).current = w.current ∧
    (heard.foldl (fun w rx => (rxDispatch w rx none).1) w).sent = w.sent ∧
    ((heard.foldl (fun w rx => (rxDispatch w rx none).1) w).keys.valid = true ↔
      w.keys.valid = true ∧
        ¬ (w.haveCurrent = true ∧ ∃ rx ∈ heard, Disconnects w.current.bssid rx.bytes)) := by
  induction heard generalizing w with
  | nil => simp
  | cons rx rest ih =>
    rw [foldl_cons]
    obtain ⟨hcurrent, hsent, hvalid⟩ := ih (rxDispatch w rx none).1
    rcases rxDispatch_cases w rx none with ⟨hhave, hends, heq⟩ | ⟨hnot, table, heq⟩
    · rw [heq] at hcurrent hsent hvalid ⊢
      refine ⟨hcurrent, hsent, hvalid.trans (iff_of_false (fun h => by cases h.1) fun h => ?_)⟩
      exact h.2 ⟨hhave, rx, mem_cons_self, hends⟩
    rw [heq] at hcurrent hsent hvalid ⊢
    refine ⟨hcurrent, hsent, hvalid.trans (and_congr_right fun _ => not_congr ?_)⟩
    refine and_congr_right fun hhave => ⟨?_, ?_⟩
    · rintro ⟨rx', hmem, hends⟩
      exact ⟨rx', mem_cons_of_mem rx hmem, hends⟩
    rintro ⟨rx', hmem, hends⟩
    rcases mem_cons.mp hmem with rfl | hmem
    · exact absurd ⟨hhave, hends⟩ hnot
    · exact ⟨rx', hmem, hends⟩

/-- A scan keeps the link guarded exactly if it does not break it. -/
lemma wifiScan_safe_iff (hw : w.Safe) (max : ℕ) (air : ScanAir) :
    (wifiScan w max air).1.Safe ↔ ¬ ScanBreaks w air := by
  unfold wifiScan
  split
  · rename_i hops
    exact iff_of_true hw fun h => hops h.ops
  rename_i hops
  split
  · rename_i e hstart
    refine iff_of_true (SameLink.safe (w := w) ⟨rfl, rfl, rfl, rfl, rfl, id⟩ hw) fun h => ?_
    rw [h.start] at hstart
    cases hstart
  rename_i hstart
  obtain ⟨hcurrent, hsent, hvalid⟩ :=
    heard_valid air.heard { w with state := .scanning, scanTable := [] }
  constructor
  · intro hsafe hbreaks
    have hkeys := hsafe.guarded hbreaks.connected (by
      rw [hcurrent]
      exact hbreaks.security)
    exact (hvalid.mp hkeys).2 ⟨hbreaks.haveCurrent, hbreaks.heard⟩
  · intro hnot
    refine ⟨fun hconnected hprotected => hvalid.mpr ⟨?_, fun hends => ?_⟩, ?_⟩
    · refine hw.guarded hconnected ?_
      rwa [hcurrent] at hprotected
    · rw [hcurrent] at hprotected
      exact hnot ⟨by simpa using hops, hstart, hconnected, hprotected, hends.1, hends.2⟩
    · rw [hsent]
      exact hw.covered

/-- `wifi_connect` looks the network up, and may scan for it. -/
lemma lookup_safe_iff (hw : w.Safe) (ssid : List UInt8) (air : ScanAir) :
    (lookup w ssid air).1.Safe ↔ (findName w.scanTable ssid = none → ¬ ScanBreaks w air) := by
  unfold lookup
  split
  · rename_i heq
    exact iff_of_true hw fun hnone => by
      rw [hnone] at heq
      cases heq
  · rename_i heq
    exact (wifiScan_safe_iff hw 1 air).trans ⟨fun h _ => h, fun h => h heq⟩

/-! ## Whole runs -/

lemma scanl_safe (hw : w.Safe) (calls : List NetdevCall) :
    ∀ w' ∈ calls.scanl netdevCall w, w'.Safe := by
  induction calls generalizing w with
  | nil =>
    rw [scanl_nil]
    exact forall_mem_singleton.mpr hw
  | cons call rest ih =>
    rw [scanl_cons]
    exact forall_mem_cons.mpr ⟨hw, ih (netdevCall_safe hw call)⟩

/-- `wifi_connect` keeps the link guarded on all its way, if the lookup did. -/
lemma connectMoments_safe_iff (c : Crypto) (w : Wifi) (ssid password : List UInt8)
    (air : ConnectAir) :
    (∀ w' ∈ connectMoments c w ssid password air, w'.Safe) ↔
      (lookup (w.fail "") ssid air.scan).1.Safe := by
  unfold connectMoments
  split
  · rename_i w1 heq
    rw [heq, forall_mem_singleton]
  rename_i w1 net heq
  rw [heq]
  have hsafe2 : w1.Safe → _ := fun hsafe => wifiLink_safe c hsafe net password air
  split
  · rename_i w2 e hlink
    rw [hlink] at hsafe2
    rw [forall_mem_cons, forall_mem_singleton]
    exact and_iff_left_of_imp hsafe2
  · rename_i w2 hlink
    rw [hlink] at hsafe2
    rw [forall_mem_cons]
    exact and_iff_left_of_imp fun hsafe => scanl_safe (hsafe2 hsafe) air.dhcp

/-- The state at the end of `wifi_connect`. -/
lemma wifiConnect_safe (c : Crypto) (hw : w.Safe) (ssid password : List UInt8) (air : ConnectAir)
    (hlookup : w.ops = true → ssid ≠ [] → (lookup (w.fail "") ssid air.scan).1.Safe) :
    (wifiConnect c w ssid password air).1.Safe := by
  have hfail : (w.fail "").Safe := ((SameLink.refl w).fail _).safe hw
  unfold wifiConnect
  dsimp only
  split
  · exact hfail
  rename_i hops
  split
  · exact ((SameLink.refl _).fail _).safe hfail
  rename_i hssid
  have hfound := hlookup (not_not.mp hops) hssid
  split
  · rename_i heq
    rw [heq] at hfound
    exact ((SameLink.refl _).fail _).safe hfound
  rename_i w1 net heq
  rw [heq] at hfound
  have hlink := wifiLink_safe c hfound net password air
  split
  · rename_i heq
    rw [heq] at hlink
    exact hlink
  rename_i heq
  rw [heq] at hlink
  have hdhcp := foldlRecOn (motive := Wifi.Safe) air.dhcp _ hlink
    fun _ hw call _ => netdevCall_safe hw call
  split_ifs
  · exact hdhcp
  · exact ((SameLink.refl _).fail _).safe hdhcp

/-- A call keeps the link guarded, on all its way, exactly when it is careful. -/
theorem moments_safe_iff (c : Crypto) (hw : w.Safe) (op : WifiOp) :
    (∀ w' ∈ op.moments c w, w'.Safe) ↔ op.Careful w := by
  cases op with
  | attach mac =>
    refine iff_of_true (forall_mem_singleton.mpr ?_) trivial
    exact ⟨fun h => (by cases h), hw.covered⟩
  | scan max air => exact forall_mem_singleton.trans (wifiScan_safe_iff hw max air)
  | connect ssid password air =>
    have hfail : (w.fail "").Safe := ((SameLink.refl w).fail _).safe hw
    have hlookup : (lookup (w.fail "") ssid air.scan).1.Safe ↔
        (findName w.scanTable ssid = none → ¬ ScanBreaks w air.scan) := by
      refine (lookup_safe_iff hfail ssid air.scan).trans (imp_congr_right fun _ => not_congr ?_)
      exact ⟨fun h => ⟨h.1, h.2, h.3, h.4, h.5, h.6⟩, fun h => ⟨h.1, h.2, h.3, h.4, h.5, h.6⟩⟩
    rw [WifiOp.moments, WifiOp.Careful, forall_mem_append, forall_mem_singleton]
    split_ifs with hstart
    · rw [connectMoments_safe_iff, hlookup]
      constructor
      · intro h _
        exact h.1
      · intro h
        exact ⟨h hstart.2, wifiConnect_safe c hw _ _ _ fun _ _ => hlookup.mpr (h hstart.2)⟩
    · refine iff_of_true ⟨fun _ hmem => (by cases hmem), ?_⟩ fun hssid _ hbreaks => ?_
      · exact wifiConnect_safe c hw _ _ _ fun hops hssid => absurd ⟨hops, hssid⟩ hstart
      · exact hstart ⟨hbreaks.ops, hssid⟩
  | disconnect =>
    refine iff_of_true (forall_mem_singleton.mpr ?_) trivial
    change (wifiDisconnect w).1.Safe
    unfold wifiDisconnect
    split
    · exact hw
    split
    · exact hw
    refine ⟨fun h => (by cases h), ?_⟩
    split
    · refine (SameLink.tx w.bump ?_).sent hw.covered
      exact trivial
    · exact hw.covered
  | netdev call =>
    exact iff_of_true (forall_mem_singleton.mpr (netdevCall_safe hw call)) trivial

/-- The state after a call is one of those it goes through. -/
lemma WifiOp.exec_mem_moments (c : Crypto) (w : Wifi) (op : WifiOp) :
    op.exec c w ∈ op.moments c w := by
  cases op with
  | connect => exact mem_append_right _ (mem_singleton.mpr rfl)
  | _ => exact mem_singleton.mpr rfl

/-- One careful call. -/
def carefulStep (c : Crypto) (w : Wifi) (op : WifiOp) (w' : Wifi) : Prop :=
  op.Careful w ∧ w' = op.exec c w

/-- From boot, through careful calls, the link to a protected network always has its keys and
carries nothing in the clear; and a call keeps it so exactly when it is careful. -/
theorem run_guarded (c : Crypto) {ops : List WifiOp} {w : Wifi}
    (hrun : Run (carefulStep c) Wifi.zero ops w) :
    w.Safe ∧ ∀ op : WifiOp, (∀ w' ∈ op.moments c w, w'.Safe) ↔ op.Careful w := by
  have hsafe : w.Safe := by
    refine hrun.invariant (P := Wifi.Safe) ?_ ⟨fun h => (by cases h), fun s hs => (by cases hs)⟩
    rintro w op _ hw ⟨hcareful, rfl⟩
    exact (moments_safe_iff c hw op).mpr hcareful _ (op.exec_mem_moments c w)
  exact ⟨hsafe, fun op => moments_safe_iff c hsafe op⟩

/-! ## A scan that hears a deauthentication -/

/-- Hash functions to run the model with. -/
def plainCrypto : Crypto where
  pbkdf2 password ssid := (password ++ ssid ++ List.replicate 32 0).take 32
  prf pmk data := (pmk ++ data).take 48
  hmac kck data := (kck ++ data).take 20
  unwrap _ _ := none

namespace Scene

/-- The addresses of the station and of the access point. -/
def station : List UInt8 := [2, 0, 0, 0, 0, 9]
def ap : List UInt8 := [2, 0, 0, 0, 0, 1]

def ssid : List UInt8 := ascii "home"
def password : List UInt8 := ascii "passphrase"

/-- A management frame of the access point. -/
def apMgmt (sub : ℕ) (body : List UInt8) : Rx :=
  ⟨ieeeHdr (fcMake fcTypeMgmt sub) station ap ap 0 ++ body, -40⟩

/-- A key message of the access point. -/
def apKey (message : List UInt8) : Rx :=
  ⟨ieeeHdr (fcMake fcTypeData fcSubData) station ap ap 0 ++ llcSnap ++ putBe16 ethPEapol ++ message,
    -40⟩

def beacon : Rx :=
  apMgmt fcSubBeacon (List.replicate 10 0 ++ putLe16 0x11 ++ [ieSsid, 4] ++ ssid ++ ourRsnIe)

def zeroes (n : ℕ) : List UInt8 := List.replicate n 0

/-- What the station signs with, after message one. -/
def kck : List UInt8 :=
  field (plainCrypto.prf (plainCrypto.pbkdf2 password ssid) (ptkData station ap (zeroes 32) (zeroes 32)))
    0 16

/-- The key information of message three. -/
def threeInfo : ℕ := keyVersionSha1Aes + keyInfoPairwise + keyInfoMic + keyInfoSecure

/-- Message three, signed. -/
def three : List UInt8 :=
  eapolMessage threeInfo (zeroes 8) (zeroes 32)
    ((plainCrypto.hmac kck (eapolMessage threeInfo (zeroes 8) (zeroes 32) (zeroes 16) [])).take 16) []

def handshakeAir : HandshakeAir where
  heard1 := [apKey (eapolMessage (keyVersionSha1Aes + keyInfoPairwise) (zeroes 8) (zeroes 32)
    (zeroes 16) [])]
  heard3 := [apKey three]
  snonce := zeroes 32
  takes2 := true
  takes4 := true
  takesKey := true

def connectAir : ConnectAir where
  scan := ⟨.ok (), []⟩
  takesChannel := true
  takesBss := true
  auth _ := ⟨true, [apMgmt fcSubAuth (putLe16 0 ++ putLe16 2 ++ putLe16 0)]⟩
  assoc _ := ⟨true, [apMgmt fcSubAssocResp (putLe16 0x11 ++ putLe16 0 ++ putLe16 0xC001)]⟩
  handshake := handshakeAir
  dhcp := []
  addressed := true

/-- The station finds a protected network and joins it. -/
def join : List WifiOp :=
  [.attach station, .scan 8 ⟨.ok (), [beacon]⟩, .connect ssid password connectAir]

/-- The access point throws it off during a scan, and the IP stack then sends a frame. -/
def thrownOff : List WifiOp :=
  [.scan 8 ⟨.ok (), [apMgmt fcSubDeauth (putLe16 3)]⟩, .netdev (.send (zeroes 14))]

/-- The station after some calls. -/
def after (ops : List WifiOp) : Wifi := ops.foldl (WifiOp.exec plainCrypto) Wifi.zero

end Scene

theorem run_guarded_join :
    (Scene.after Scene.join).state = .connected ∧
      (Scene.after Scene.join).current.security = .wpa2 ∧
      (Scene.after Scene.join).Safe ∧
      ∀ op : WifiOp, (∀ w' ∈ op.moments plainCrypto (Scene.after Scene.join), w'.Safe) ↔
        op.Careful (Scene.after Scene.join) := by
  have hfound : findName (Scene.after (Scene.join.take 2)).scanTable Scene.ssid ≠ none := by
    decide
  have hrun : Run (carefulStep plainCrypto) Wifi.zero Scene.join (Scene.after Scene.join) := by
    refine .cons ⟨trivial, rfl⟩ (.cons ⟨?_, rfl⟩
      (.cons ⟨fun _ hnone => absurd hnone hfound, rfl⟩ (.nil _)))
    exact fun hbreaks => by cases hbreaks.connected
  exact ⟨by decide +kernel, by decide +kernel, run_guarded plainCrypto hrun⟩

/-- After a scan that heard a deauthentication, a frame for a protected network goes out in the
clear. -/
theorem not_guarded_thrownOff :
    ¬ ∀ (c : Crypto) (ops : List WifiOp), (ops.foldl (WifiOp.exec c) Wifi.zero).Safe := by
  intro hall
  have hsafe : (Scene.after (Scene.join ++ Scene.thrownOff)).Safe := hall plainCrypto _
  have hstate : (Scene.after (Scene.join ++ Scene.thrownOff)).state = .connected ∧
      (Scene.after (Scene.join ++ Scene.thrownOff)).current.security ≠ .open ∧
      (Scene.after (Scene.join ++ Scene.thrownOff)).keys.valid = false := by decide +kernel
  have hkeys := hsafe.guarded hstate.1 hstate.2.1
  rw [hstate.2.2] at hkeys
  cases hkeys

end Wos.Net
