import Wos.Abi
import Wos.Base.Bytes

/-!
# The wireless layer

`kernel/net/wifi.c`: scanning, joining a network, the WPA2 handshake, and the adapter as the IP
stack sees it. Frames are lists of bytes, laid out as the packed structures of the source.

The adapter (`wifi_ops_t`) is outside. What it answers is an argument of each call: a list of the
frames that `ops->rx` returns while the code polls, as long as the deadline allows, and whether it
takes a frame or a key. The hash functions are a parameter. Frames given to `ops->tx` are logged,
with what each was signed with, or the network it was carried on.

## Main definitions

* `Wifi`: the static variables of the file;
* `rxDispatch`, `wifiScan`, `doAuthenticate`, `doAssociate`, `doHandshake`, `wifiConnect`,
  `wifiDisconnect`, `netdevSend`, `netdevPoll`: its functions.
-/

namespace Wos.Net

/-! ## Bytes of a frame -/

/-- `get_le16`. -/
def getLe16 (b : List UInt8) (pos : ℕ) : ℕ := (b.getD pos 0).toNat + 256 * (b.getD (pos + 1) 0).toNat

/-- `get_be16`. -/
def getBe16 (b : List UInt8) (pos : ℕ) : ℕ := 256 * (b.getD pos 0).toNat + (b.getD (pos + 1) 0).toNat

/-- `put_le16`. -/
def putLe16 (v : ℕ) : List UInt8 := [leByte v 0, leByte v 1]

/-- `put_be16`. -/
def putBe16 (v : ℕ) : List UInt8 := [leByte v 1, leByte v 0]

/-- The `n` bytes from `pos` on. -/
def field (b : List UInt8) (pos n : ℕ) : List UInt8 := (b.drop pos).take n

/-- `NETDEV_MTU_FRAME`. -/
def mtuFrame : ℕ := 1600

/-! ## 802.11 on the wire -/

/-- The types of a frame that the code knows. -/
def fcTypeMgmt : ℕ := 0
def fcTypeData : ℕ := 2

/-- The subtypes of a management frame. -/
def fcSubAssocReq : ℕ := 0
def fcSubAssocResp : ℕ := 1
def fcSubProbeResp : ℕ := 5
def fcSubBeacon : ℕ := 8
def fcSubDisassoc : ℕ := 10
def fcSubAuth : ℕ := 11
def fcSubDeauth : ℕ := 12

/-- The subtypes of a data frame. -/
def fcSubData : ℕ := 0
def fcSubQosData : ℕ := 8

def fcToDs : ℕ := 0x0100
def fcProtected : ℕ := 0x4000

/-- `FC_TYPE`. -/
def fcType (fc : ℕ) : ℕ := fc / 4 % 4

/-- `FC_SUBTYPE`. -/
def fcSubtype (fc : ℕ) : ℕ := fc / 16 % 16

/-- `FC_MAKE`. -/
def fcMake (type sub : ℕ) : ℕ := type * 4 + sub * 16

/-- `sizeof (struct ieee80211_hdr)`. -/
def hdrLen : ℕ := 24

/-- A `struct ieee80211_hdr`, its duration zero. -/
def ieeeHdr (fc : ℕ) (addr1 addr2 addr3 : List UInt8) (sequence : ℕ) : List UInt8 :=
  putLe16 fc ++ [0, 0] ++ addr1 ++ addr2 ++ addr3 ++ putLe16 (sequence * 16)

/-- The sender and the third address of a frame. -/
def addr1Of (frame : List UInt8) : List UInt8 := field frame 4 6
def addr2Of (frame : List UInt8) : List UInt8 := field frame 10 6
def addr3Of (frame : List UInt8) : List UInt8 := field frame 16 6

/-- `llc_snap`. -/
def llcSnap : List UInt8 := [0xAA, 0xAA, 0x03, 0x00, 0x00, 0x00]

def ethPEapol : ℕ := 0x888E

/-- The identifiers of information elements. -/
def ieSsid : UInt8 := 0
def ieRates : UInt8 := 1
def ieDsParams : UInt8 := 3
def ieRsn : UInt8 := 48
def ieExtRates : UInt8 := 50
def ieVendor : UInt8 := 221

/-- Cipher and authentication suites of an RSN element. -/
def rsnCipherCcmp : List UInt8 := [0x00, 0x0F, 0xAC, 4]
def rsnAkmPsk : List UInt8 := [0x00, 0x0F, 0xAC, 2]
def rsnAkmSae : List UInt8 := [0x00, 0x0F, 0xAC, 8]

/-! ## State -/

/-- `wifi_security_t`. -/
inductive WifiSecurity
  | open | wep | wpa | wpa2 | wpa3
  deriving DecidableEq

/-- `wifi_network_t`. -/
structure WifiNetwork where
  /-- `ssid`, of length `ssid_len`. -/
  ssid : List UInt8
  bssid : List UInt8
  channel : UInt8
  signal : ℤ
  security : WifiSecurity
  hidden : Bool
  ccmp : Bool
  deriving DecidableEq

/-- `wifi_state_t`. -/
inductive WifiState
  | absent | idle | scanning | joining | handshake | connected
  deriving DecidableEq

/-- `keys`. -/
structure Keys where
  valid : Bool
  kck : List UInt8
  kek : List UInt8
  tk : List UInt8
  pmk : List UInt8
  deriving DecidableEq

/-- A frame given to `ops->tx`. -/
inductive Sent
  /-- A management frame. -/
  | mgmt (frame : List UInt8)
  /-- A key message; the key and the bytes of its integrity code. -/
  | eapol (frame kck data : List UInt8)
  /-- A frame of the IP stack; whether the adapter is to encrypt it, and the network it is for. -/
  | data (frame : List UInt8) (encrypt : Bool) (network : WifiNetwork)
  deriving DecidableEq

/-- The static variables. -/
structure Wifi where
  /-- `ops` is set. -/
  ops : Bool
  state : WifiState
  /-- The first `scan_count` entries of `scan_table`. -/
  scanTable : List WifiNetwork
  current : WifiNetwork
  haveCurrent : Bool
  currentAid : ℕ
  ourMac : List UInt8
  lastError : String
  keys : Keys
  txSequence : ℕ
  sent : List Sent
  deriving DecidableEq

/-- The hash functions of `kernel/net/crypto.c`. -/
structure Crypto where
  /-- `pbkdf2_sha1` with 4096 rounds. -/
  pbkdf2 : List UInt8 → List UInt8 → List UInt8
  /-- `sha1_prf` with the label `Pairwise key expansion`, 48 bytes. -/
  prf : List UInt8 → List UInt8 → List UInt8
  hmac : List UInt8 → List UInt8 → List UInt8
  /-- `aes_unwrap_key`. -/
  unwrap : List UInt8 → List UInt8 → Option (List UInt8)

/-- A frame that `ops->rx` returned, and how strong it was. No bytes mean that there was none. -/
structure Rx where
  bytes : List UInt8
  signal : ℤ

namespace Wifi

/-- `fail`. -/
def fail (w : Wifi) (why : String) : Wifi := { w with lastError := why }

/-- `ops->tx`. -/
def tx (w : Wifi) (frame : Sent) : Wifi := { w with sent := w.sent ++ [frame] }

/-- `tx_sequence++`. -/
def bump (w : Wifi) : Wifi := { w with txSequence := (w.txSequence + 1) % 65536 }

end Wifi

/-! ## Information elements -/

/-- The elements of a frame body, up to one that claims to be longer than the frame. -/
def elementsFrom : ℕ → List UInt8 → List (UInt8 × List UInt8)
  | 0, _ => []
  | fuel + 1, id :: len :: rest =>
    if rest.length < len.toNat then []
    else (id, rest.take len.toNat) :: elementsFrom fuel (rest.drop len.toNat)
  | _ + 1, _ => []

def elements (ies : List UInt8) : List (UInt8 × List UInt8) := elementsFrom ies.length ies

/-- `find_ie`. -/
def findIe (ies : List UInt8) (id : UInt8) : Option (List UInt8) :=
  ((elements ies).find? (·.1 = id)).map (·.2)

/-- The first `count` suites of four bytes, as far as the element reaches. -/
def suites : ℕ → List UInt8 → List (List UInt8)
  | 0, _ => []
  | count + 1, b => if b.length < 4 then [] else b.take 4 :: suites count (b.drop 4)

/-- The RSN element, unless it is too short to be one. -/
def findRsn (ies : List UInt8) : Option (List UInt8) :=
  (findIe ies ieRsn).filter (8 ≤ ·.length)

/-- `read_security`. -/
def readSecurity (ies : List UInt8) (capability : ℕ) : WifiSecurity :=
  match findRsn ies with
  | some rsn =>
    let pos := 8 + 4 * getLe16 rsn 6
    if rsn.length < pos + 2 then .wpa2
    else if rsnAkmSae ∈ suites (getLe16 rsn pos) (rsn.drop (pos + 2)) then .wpa3
    else .wpa2
  | none =>
    if (elements ies).any fun e => e.1 = ieVendor ∧ e.2.take 4 = [0x00, 0x50, 0xF2, 0x01] then .wpa
    else if capability.testBit 4 then .wep
    else .open

/-- `rsn_offers_ccmp`. -/
def rsnOffersCcmp (ies : List UInt8) : Bool :=
  match findRsn ies with
  | some rsn => rsnCipherCcmp ∈ suites (getLe16 rsn 6) (rsn.drop 8)
  | none => false

/-! ## The scan table -/

/-- `WIFI_SCAN_MAX`. -/
def scanMax : ℕ := 48

/-- `WIFI_SSID_MAX`. -/
def ssidMax : ℕ := 32

/-- The index of the weakest entry, the first of several. -/
def weakest (table : List WifiNetwork) : ℕ :=
  (List.range table.length).foldl (fun best i =>
    match table[i]?, table[best]? with
    | some e, some b => if e.signal < b.signal then i else best
    | _, _ => best) 0

/-- `scan_record`. -/
def scanRecord (table : List WifiNetwork) (seen : WifiNetwork) : List WifiNetwork :=
  match table.findIdx? (·.ssid = seen.ssid) with
  | some i =>
    if (table[i]?.any fun e => e.signal < seen.signal) then table.set i seen else table
  | none =>
    if table.length < scanMax then table ++ [seen]
    else if (table[weakest table]?.any fun e => e.signal < seen.signal) then
      table.set (weakest table) seen
    else table

/-- A hexadecimal digit. -/
def hexDigit (n : ℕ) : UInt8 := if n < 10 then UInt8.ofNat (48 + n) else UInt8.ofNat (87 + n)

/-- The name made up for a network that hides its own. -/
def hiddenName (bssid : List UInt8) : List UInt8 :=
  let hex (i : ℕ) : List UInt8 :=
    [hexDigit ((bssid.getD i 0).toNat / 16), hexDigit ((bssid.getD i 0).toNat % 16)]
  ascii "(hidden " ++ hex 3 ++ ascii ":" ++ hex 4 ++ ascii ":" ++ hex 5 ++ ascii ")"

/-- The network that a beacon or probe response announces. -/
def beaconNetwork (rx : Rx) : WifiNetwork :=
  let ies := rx.bytes.drop (hdrLen + 12)
  let name := (findIe ies ieSsid).filter fun s =>
    0 < s.length ∧ s.length ≤ ssidMax ∧ s.any (· ≠ 0)
  { ssid := name.getD (hiddenName (addr3Of rx.bytes))
    bssid := addr3Of rx.bytes
    channel := (findIe ies ieDsParams).elim 0 (·.getD 0 0)
    signal := rx.signal
    security := readSecurity ies (getLe16 rx.bytes (hdrLen + 10))
    hidden := name.isNone
    ccmp := rsnOffersCcmp ies }

/-- `scan_beacon`. -/
def Wifi.scanBeacon (w : Wifi) (rx : Rx) : Wifi :=
  if rx.bytes.length < hdrLen + 12 then w
  else { w with scanTable := scanRecord w.scanTable (beaconNetwork rx) }

/-- One turn of `scan_sort`: `key` moves down past the weaker entries at the end. -/
def insertBySignal (sorted : List WifiNetwork) (key : WifiNetwork) : List WifiNetwork :=
  let weaker (e : WifiNetwork) : Bool := e.signal < key.signal
  (sorted.reverse.dropWhile weaker).reverse ++ key :: (sorted.reverse.takeWhile weaker).reverse

/-- `scan_sort`. -/
def scanSort (table : List WifiNetwork) : List WifiNetwork := table.foldl insertBySignal []

/-! ## Receiving -/

/-- A frame is a management frame of one of the given subtypes. -/
def IsMgmt (frame : List UInt8) (sub sub' : ℕ) : Prop :=
  fcType (getLe16 frame 0) = fcTypeMgmt ∧
    (fcSubtype (getLe16 frame 0) = sub ∨ fcSubtype (getLe16 frame 0) = sub')

instance (frame : List UInt8) (sub sub' : ℕ) : Decidable (IsMgmt frame sub sub') :=
  inferInstanceAs (Decidable (_ ∧ _))

/-- `rx_dispatch`, waiting for a frame of the given type and subtype; whether this is it. -/
def rxDispatch (w : Wifi) (rx : Rx) (want : Option (ℕ × ℕ)) : Wifi × Bool :=
  if rx.bytes.length < hdrLen then (w, false)
  else if IsMgmt rx.bytes fcSubBeacon fcSubProbeResp then (w.scanBeacon rx, false)
  else if IsMgmt rx.bytes fcSubDeauth fcSubDisassoc then
    -- the access point threw us off
    if w.haveCurrent ∧ addr2Of rx.bytes = w.current.bssid then
      ({ w with state := .idle, keys := { w.keys with valid := false }, haveCurrent := false },
        false)
    else (w, false)
  else (w, want = some (fcType (getLe16 rx.bytes 0), fcSubtype (getLe16 rx.bytes 0)))

/-- `rx_wait`, with the frames that arrive before the deadline. -/
def rxWait (want : ℕ × ℕ) : List Rx → Wifi → Wifi × Option (List UInt8)
  | [], w => (w, none)
  | rx :: rest, w =>
    let r := rxDispatch w rx (some want)
    if r.2 then (r.1, some rx.bytes) else rxWait want rest r.1

/-! ## Joining -/

/-- What the adapter does in one attempt at an exchange: whether it takes the request, and the
frames it then receives. -/
structure Attempt where
  takes : Bool
  heard : List Rx

/-- The texts of an exchange that fails. -/
structure Exchange where
  subtype : ℕ
  unsent : String
  silent : String
  malformed : String
  refused : String

/-- Up to three attempts at sending a request and waiting for its answer. -/
def request (x : Exchange) (frame : List UInt8) :
    List Attempt → Wifi → Wifi × Except Errno (List UInt8)
  | [], w => (w.fail x.silent, .error .ETIMEDOUT)
  | a :: rest, w =>
    if a.takes then
      match rxWait (fcTypeMgmt, x.subtype) a.heard (w.tx (.mgmt frame)) with
      | (w, some answer) => (w, .ok answer)
      | (w, none) => request x frame rest w
    else ((w.tx (.mgmt frame)).fail x.unsent, .error  Errno.EIO)

/-- The whole exchange: the answer has to be long enough, with status zero at `pos`. -/
def exchange (x : Exchange) (pos : ℕ) (frame : List UInt8) (attempts : Fin 3 → Attempt) (w : Wifi) :
    Wifi × Except Errno (List UInt8) :=
  match request x frame [attempts 0, attempts 1, attempts 2] w with
  | (w, .error e) => (w, .error e)
  | (w, .ok answer) =>
    if answer.length < hdrLen + 6 then (w.fail x.malformed, .error  Errno.EIO)
    else if getLe16 answer (hdrLen + pos) ≠ 0 then (w.fail x.refused, .error .EACCES)
    else (w, .ok answer)

/-- `mgmt_header`. -/
def Wifi.mgmtHeader (w : Wifi) (sub : ℕ) (bssid : List UInt8) : List UInt8 :=
  ieeeHdr (fcMake fcTypeMgmt sub) bssid w.ourMac bssid w.txSequence

/-- The texts of `do_authenticate`. -/
def authExchange : Exchange where
  subtype := fcSubAuth
  unsent := "the adapter would not send the authentication request"
  silent := "the access point did not answer the authentication request"
  malformed := "the access point sent a malformed authentication reply"
  refused := "the access point refused to authenticate us"

/-- `do_authenticate`. -/
def doAuthenticate (w : Wifi) (net : WifiNetwork) (attempts : Fin 3 → Attempt) :
    Wifi × Except Errno Unit :=
  let frame := w.mgmtHeader fcSubAuth net.bssid ++ putLe16 0 ++ putLe16 1 ++ putLe16 0
  match exchange authExchange 4 frame attempts w.bump with
  | (w, .error e) => (w, .error e)
  | (w, .ok _) => (w, .ok ())

/-- `put_rate_ies`. -/
def rateIes : List UInt8 :=
  [ieRates, 8, 0x82, 0x84, 0x8B, 0x96, 0x0C, 0x12, 0x18, 0x24, ieExtRates, 4, 0x30, 0x48, 0x60, 0x6C]

/-- `our_rsn_ie`, as `build_rsn_ie` fills it in. -/
def ourRsnIe : List UInt8 :=
  [ieRsn, 20] ++ putLe16 1 ++ rsnCipherCcmp ++ putLe16 1 ++ rsnCipherCcmp ++ putLe16 1 ++ rsnAkmPsk
    ++ putLe16 0

/-- The texts of `do_associate`. -/
def assocExchange : Exchange where
  subtype := fcSubAssocResp
  unsent := "the adapter would not send the association request"
  silent := "the access point did not answer the association request"
  malformed := "the access point sent a malformed association reply"
  refused := "the access point refused to associate us"

/-- `do_associate`. -/
def doAssociate (w : Wifi) (net : WifiNetwork) (isProtected : Bool) (attempts : Fin 3 → Attempt) :
    Wifi × Except Errno Unit :=
  let frame := w.mgmtHeader fcSubAssocReq net.bssid ++ putLe16 (if isProtected then 0x11 else 0x01)
    ++ putLe16 10 ++ [ieSsid, UInt8.ofNat net.ssid.length] ++ net.ssid ++ rateIes
    ++ (if isProtected then ourRsnIe else [])
  match exchange assocExchange 2 frame attempts w.bump with
  | (w, .error e) => (w, .error e)
  | (w, .ok answer) =>
    ({ w with currentAid := getLe16 answer (hdrLen + 4) % 0x4000 }, .ok ())

/-! ## The four-way handshake -/

/-- `memcmp (a, b, n) < 0` on arrays of one length. -/
def memLt : List UInt8 → List UInt8 → Bool
  | a :: as, b :: bs => a < b ∨ a = b ∧ memLt as bs
  | _, _ => false

/-- The bytes that the session keys are derived from: addresses, then nonces, the smaller first. -/
def ptkData (ourMac apMac anonce snonce : List UInt8) : List UInt8 :=
  (if memLt ourMac apMac then ourMac ++ apMac else apMac ++ ourMac)
    ++ (if memLt snonce anonce then snonce ++ anonce else anonce ++ snonce)

/-- `derive_ptk`. -/
def Wifi.derivePtk (c : Crypto) (w : Wifi) (anonce snonce apMac : List UInt8) : Wifi :=
  let ptk := c.prf w.keys.pmk (ptkData w.ourMac apMac anonce snonce)
  { w with keys :=
    { w.keys with
      valid := true, kck := field ptk 0 16, kek := field ptk 16 16, tk := field ptk 32 16 } }

/-- `sizeof (struct eapol_hdr)` and `sizeof (struct eapol_key)`. -/
def eapolHdrLen : ℕ := 4
def eapolKeyLen : ℕ := 95

/-- Where the integrity code lies in a key message. -/
def micPos : ℕ := 81

def keyVersionSha1Aes : ℕ := 2
def keyInfoPairwise : ℕ := 0x0008
def keyInfoMic : ℕ := 0x0100
def keyInfoSecure : ℕ := 0x0200

/-- A `struct eapol_hdr` and a `struct eapol_key`, with the key data. -/
def eapolMessage (keyInfo : ℕ) (replayCounter nonce mic keyData : List UInt8) : List UInt8 :=
  [2, 3] ++ putBe16 (eapolKeyLen + keyData.length) ++ [2] ++ putBe16 keyInfo ++ putBe16 16
    ++ replayCounter ++ nonce ++ List.replicate 32 0 ++ mic ++ putBe16 keyData.length ++ keyData

/-- `send_eapol`, signed. -/
def Wifi.sendEapol (c : Crypto) (w : Wifi) (bssid : List UInt8) (keyInfo : ℕ)
    (replayCounter nonce keyData : List UInt8) : Wifi :=
  let hdr := ieeeHdr (fcMake fcTypeData fcSubData + fcToDs) bssid w.ourMac bssid w.txSequence
  let data := eapolMessage keyInfo replayCounter nonce (List.replicate 16 0) keyData
  let mic := (c.hmac w.keys.kck data).take 16
  w.bump.tx (.eapol (hdr ++ llcSnap ++ putBe16 ethPEapol
    ++ eapolMessage keyInfo replayCounter nonce mic keyData) w.keys.kck data)

/-- Where the body of a data frame starts: a QoS frame has two bytes more. -/
def bodyPos (frame : List UInt8) : ℕ :=
  if fcSubtype (getLe16 frame 0) = fcSubQosData then hdrLen + 2 else hdrLen

/-- The key message in a frame, if `recv_eapol` takes it, cut to the size of its buffer. -/
def eapolBody (bssid : List UInt8) (frame : List UInt8) : Option (List UInt8) :=
  let pos := bodyPos frame
  if hdrLen + 8 ≤ frame.length ∧ fcType (getLe16 frame 0) = fcTypeData ∧ addr2Of frame = bssid ∧
      pos + 8 ≤ frame.length ∧ field frame pos 6 = llcSnap ∧ getBe16 frame (pos + 6) = ethPEapol then
    some ((frame.drop (pos + 8)).take 512)
  else none

/-- `recv_eapol`, with the frames that arrive before the deadline. -/
def recvEapol (bssid : List UInt8) (heard : List Rx) : Option (List UInt8) :=
  heard.findSome? fun rx => eapolBody bssid rx.bytes

/-- A key message, unless it is too short to be one. -/
def recvKey (bssid : List UInt8) (heard : List Rx) : Option (List UInt8) :=
  (recvEapol bssid heard).filter (eapolHdrLen + eapolKeyLen ≤ ·.length)

/-- `key_info`, `replay_counter`, `key_nonce` and `key_mic` of a key message. -/
def keyInfoOf (body : List UInt8) : ℕ := getBe16 body 5
def replayCounterOf (body : List UInt8) : List UInt8 := field body 9 8
def keyNonceOf (body : List UInt8) : List UInt8 := field body 17 32
def keyMicOf (body : List UInt8) : List UInt8 := field body micPos 16

/-- `eapol_len`: how much of what arrived is the message. -/
def eapolLen (body : List UInt8) : ℕ := min (eapolHdrLen + getBe16 body 2) body.length

/-- What the integrity code of a received message covers. -/
def signedPart (body : List UInt8) : List UInt8 :=
  (body.take micPos ++ List.replicate 16 0 ++ body.drop (micPos + 16)).take (eapolLen body)

/-- The group key among the tagged blocks that `extract_gtk` unwrapped: its slot and its bytes. -/
def findGtk : ℕ → List UInt8 → Option (ℕ × List UInt8)
  | 0, _ => none
  | fuel + 1, id :: len :: rest =>
    if id = 0xDD ∧ len.toNat ≤ rest.length ∧ 6 ≤ len.toNat ∧ rest.take 4 = [0x00, 0x0F, 0xAC, 1] then
      some ((rest.getD 4 0).toNat % 4, (rest.drop 6).take (min (len.toNat - 6) 32))
    else if id = 0 then none
    else findGtk fuel (rest.drop len.toNat)
  | _ + 1, _ => none

/-- `extract_gtk`. -/
def extractGtk (c : Crypto) (kek keyData : List UInt8) : Option (ℕ × List UInt8) :=
  if keyData.length < 16 ∨ 264 < keyData.length ∨ keyData.length % 8 ≠ 0 then none
  else (c.unwrap kek keyData).bind fun plain => findGtk plain.length plain

/-- What the adapter does during a handshake. -/
structure HandshakeAir where
  /-- The frames received while waiting for message one, and for message three. -/
  heard1 : List Rx
  heard3 : List Rx
  /-- What `random_bytes` filled in. -/
  snonce : List UInt8
  /-- Whether it takes message two, message four, and the session key. -/
  takes2 : Bool
  takes4 : Bool
  takesKey : Bool

/-- The station after it has sent message two, in answer to message one. -/
def Wifi.sendTwo (c : Crypto) (w : Wifi) (bssid m1 snonce : List UInt8) : Wifi :=
  (w.derivePtk c (keyNonceOf m1) snonce bssid).sendEapol c bssid
    (keyVersionSha1Aes + keyInfoPairwise + keyInfoMic) (replayCounterOf m1) snonce ourRsnIe

/-- The key data of message three, as far as it arrived, if it is encrypted. -/
def keyDataOf (body : List UInt8) : List UInt8 :=
  if (keyInfoOf body).testBit 12 then
    field body (eapolHdrLen + eapolKeyLen)
      (min (getBe16 body 97) (eapolLen body - (eapolHdrLen + eapolKeyLen)))
  else []

/-- `do_handshake` from message three on; the group key is returned too, if there is one to
install. -/
def handshakeEnd (c : Crypto) (w : Wifi) (net : WifiNetwork) (air : HandshakeAir)
    (m3 : List UInt8) : Wifi × Except Errno (Option (ℕ × List UInt8)) :=
  if keyMicOf m3 ≠ (c.hmac w.keys.kck (signedPart m3)).take 16 then
    (w.fail "the access point's handshake signature did not verify", .error .EACCES)
  else
    let gtk := (extractGtk c w.keys.kek (keyDataOf m3)).filter (·.2 ≠ [])
    let w := w.sendEapol c net.bssid
      (keyVersionSha1Aes + keyInfoPairwise + keyInfoMic + keyInfoSecure)
      (replayCounterOf m3) (List.replicate 32 0) []
    if ¬ air.takes4 then
      (w.fail "the adapter would not send the last handshake message", .error  Errno.EIO)
    else if ¬ air.takesKey then
      (w.fail "the adapter would not accept the session key", .error  Errno.EIO)
    else (w, .ok gtk)

/-- `do_handshake`. -/
def doHandshake (c : Crypto) (w : Wifi) (net : WifiNetwork) (air : HandshakeAir) :
    Wifi × Except Errno (Option (ℕ × List UInt8)) :=
  let w := { w with state := .handshake }
  match recvKey net.bssid air.heard1 with
  | none => (w.fail "the access point never started the key handshake", .error .ETIMEDOUT)
  | some m1 =>
    if keyInfoOf m1 % 8 ≠ keyVersionSha1Aes then
      (w.fail "the network uses a key scheme this system does not implement", .error .ENOTSUP)
    else
      let w := w.sendTwo c net.bssid m1 air.snonce
      if ¬ air.takes2 then
        (w.fail "the adapter would not send the second handshake message", .error  Errno.EIO)
      else
        match recvKey net.bssid air.heard3 with
        | none => (w.fail "the access point rejected the passphrase", .error .EACCES)
        | some m3 => handshakeEnd c w net air m3

/-! ## The adapter as the IP stack sees it -/

/-- `wifi_netdev_send`; whether the frame was built and given to the adapter. -/
def netdevSend (w : Wifi) (eth : List UInt8) : Wifi × Bool :=
  if w.state ≠ .connected ∨ ¬ w.ops then (w, false)
  else if eth.length < 14 then (w, false)
  else
    let fc := fcMake fcTypeData fcSubData + fcToDs + (if w.keys.valid then fcProtected else 0)
    let hdr := ieeeHdr fc w.current.bssid w.ourMac (eth.take 6) w.txSequence
    if mtuFrame < hdrLen + 8 + (eth.length - 14) then (w.bump, false)
    else
      (w.bump.tx (.data (hdr ++ llcSnap ++ field eth 12 2 ++ eth.drop 14) w.keys.valid w.current),
        true)

/-- `wifi_netdev_poll`; the Ethernet frame it makes, if there is one. -/
def netdevPoll (w : Wifi) (rx : Rx) (cap : ℕ) : Wifi × Option (List UInt8) :=
  let frame := rx.bytes
  let fc := getLe16 frame 0
  if ¬ w.ops ∨ frame.length < hdrLen then (w, none)
  else if fcType fc = fcTypeMgmt then
    if IsMgmt frame fcSubDeauth fcSubDisassoc ∧ w.haveCurrent ∧ addr2Of frame = w.current.bssid then
      ({ w with state := .idle, keys := { w.keys with valid := false } }, none)
    else (w, none)
  else if fcType fc ≠ fcTypeData then (w, none)
  else
    let pos := bodyPos frame
    if frame.length < pos + 8 ∨ field frame pos 6 ≠ llcSnap then (w, none)
    else if getBe16 frame (pos + 6) = ethPEapol then (w, none)
    else if cap < 14 + (frame.length - (pos + 8)) then (w, none)
    else
      (w, some (addr1Of frame ++ addr3Of frame ++ putBe16 (getBe16 frame (pos + 6))
        ++ frame.drop (pos + 8)))

/-! ## Public -/

/-- What the adapter does during a scan. -/
structure ScanAir where
  /-- What `ops->scan_start` returns. -/
  start : Except Errno Unit
  heard : List Rx

/-- `wifi_scan`. -/
def wifiScan (w : Wifi) (max : ℕ) (air : ScanAir) : Wifi × Except Errno (List WifiNetwork) :=
  if ¬ w.ops then (w, .error .ENODEV)
  else
    let previous := w.state
    let w := { w with state := .scanning, scanTable := [] }
    match air.start with
    | .error e => (Wifi.fail { w with state := previous } "the adapter would not start a scan", .error e)
    | .ok () =>
      let w := air.heard.foldl (fun w rx => (rxDispatch w rx none).1) w
      let w := { w with scanTable := scanSort w.scanTable, state := previous }
      (w, .ok (w.scanTable.take max))

/-- A hexadecimal digit. -/
def isHex (ch : UInt8) : Bool :=
  (48 ≤ ch ∧ ch ≤ 57) ∨ (97 ≤ ch ∧ ch ≤ 102) ∨ (65 ≤ ch ∧ ch ≤ 70)

/-- Its value. -/
def hexValue (ch : UInt8) : UInt8 :=
  if ch ≤ 57 then ch - 48 else if ch ≤ 70 then ch - 65 + 10 else ch - 97 + 10

/-- The bytes that pairs of digits spell. -/
def hexBytes : List UInt8 → List UInt8
  | a :: b :: rest => (hexValue a * 16 + hexValue b) :: hexBytes rest
  | _ => []

/-- `derive_pmk`. -/
def Wifi.derivePmk (c : Crypto) (w : Wifi) (net : WifiNetwork) (password : List UInt8) :
    Wifi × Except Errno Unit :=
  if password.length = 64 ∧ password.all isHex then
    ({ w with keys := { w.keys with pmk := hexBytes password } }, .ok ())
  else if password.length < 8 ∨ 63 < password.length then
    (w.fail "a WPA2 passphrase must be between 8 and 63 characters", .error .EINVAL)
  else ({ w with keys := { w.keys with pmk := c.pbkdf2 password net.ssid } }, .ok ())

/-- An entry of the table by its name, which `strcmp` reads up to a NUL. -/
def findName (table : List WifiNetwork) (ssid : List UInt8) : Option WifiNetwork :=
  table.find? fun e => e.ssid.takeWhile (· ≠ 0) = ssid

/-- `lookup`. -/
def lookup (w : Wifi) (ssid : List UInt8) (air : ScanAir) : Wifi × Option WifiNetwork :=
  match findName w.scanTable ssid with
  | some e => (w, some e)
  | none =>
    let w := (wifiScan w 1 air).1
    (w, findName w.scanTable ssid)

/-- Why a network cannot be joined, before anything is sent. -/
def refusal (net : WifiNetwork) : Option String :=
  if net.hidden then some "this network hides its name, which this system cannot join"
  else if net.security = .wep then
    some "this network uses WEP, which is broken and not implemented"
  else if net.security = .wpa then
    some "this network uses the original WPA with TKIP, which is not implemented"
  else if net.security = .wpa2 ∧ ¬ net.ccmp then
    some "this network offers no cipher this system implements"
  else if net.security = .wpa3 then
    some "this network requires WPA3, whose handshake is not implemented"
  else none

/-- A call of the IP stack into the adapter. -/
inductive NetdevCall
  | send (eth : List UInt8)
  | poll (rx : Rx) (cap : ℕ)

/-- What the adapter and the IP stack do while `wifi_connect` runs. -/
structure ConnectAir where
  scan : ScanAir
  takesChannel : Bool
  takesBss : Bool
  auth : Fin 3 → Attempt
  assoc : Fin 3 → Attempt
  handshake : HandshakeAir
  /-- The calls that `net_dhcp` makes, and whether it gets an address. -/
  dhcp : List NetdevCall
  addressed : Bool

/-- One call of the IP stack. -/
def netdevCall (w : Wifi) : NetdevCall → Wifi
  | .send eth => (netdevSend w eth).1
  | .poll rx cap => (netdevPoll w rx cap).1

/-- `wifi_connect` from the association on: the handshake, if the network is protected. -/
def wifiEnter (c : Crypto) (w : Wifi) (net : WifiNetwork) (air : HandshakeAir) :
    Wifi × Except Errno Unit :=
  let w := { w with current := net, haveCurrent := true }
  if net.security ≠ .open then
    match doHandshake c w net air with
    | (w, .error e) => ({ w with state := .idle, haveCurrent := false }, .error e)
    | (w, .ok _) => ({ w with state := .connected }, .ok ())
  else ({ w with state := .connected }, .ok ())

/-- `wifi_connect` from the point where the old link is given up, to where the new one is up. -/
def wifiJoin (c : Crypto) (w : Wifi) (net : WifiNetwork) (air : ConnectAir) :
    Wifi × Except Errno Unit :=
  let w := { w with state := .joining, haveCurrent := false, keys := { w.keys with valid := false } }
  if ¬ air.takesChannel then
    (Wifi.fail { w with state := .idle } "the adapter would not tune to the network's channel",
      .error  Errno.EIO)
  else if ¬ air.takesBss then
    (Wifi.fail { w with state := .idle } "the adapter would not accept the access point's address",
      .error  Errno.EIO)
  else
    match doAuthenticate w net air.auth with
    | (w, .error e) => ({ w with state := .idle }, .error e)
    | (w, .ok ()) =>
      match doAssociate w net (net.security ≠ .open) air.assoc with
      | (w, .error e) => ({ w with state := .idle }, .error e)
      | (w, .ok ()) => wifiEnter c w net air.handshake

/-- `wifi_connect` from the point where the network is known, to where the link is up. -/
def wifiLink (c : Crypto) (w : Wifi) (net : WifiNetwork) (password : List UInt8)
    (air : ConnectAir) : Wifi × Except Errno Unit :=
  match refusal net with
  | some why => (w.fail why, .error .ENOTSUP)
  | none =>
    if net.security ≠ .open then
      if password = [] then (w.fail "this network needs a passphrase", .error .EINVAL)
      else
        match w.derivePmk c net password with
        | (w, .error e) => (w, .error e)
        | (w, .ok ()) => wifiJoin c w net air
    else wifiJoin c w net air

/-- `wifi_connect`. -/
def wifiConnect (c : Crypto) (w : Wifi) (ssid password : List UInt8) (air : ConnectAir) :
    Wifi × Except Errno Unit :=
  let w := w.fail ""
  if ¬ w.ops then (w, .error .ENODEV)
  else if ssid = [] then (w.fail "no network name was given", .error .EINVAL)
  else
    match lookup w ssid air.scan with
    | (w, none) => (w.fail "no network of that name is in range", .error .ENOENT)
    | (w, some net) =>
      match wifiLink c w net password air with
      | (w, .error e) => (w, .error e)
      | (w, .ok ()) =>
        let w := air.dhcp.foldl netdevCall w
        (if air.addressed then w else w.fail "joined the network, but no address was offered", .ok ())

/-- The static variables at boot. -/
def Wifi.zero : Wifi where
  ops := false
  state := .absent
  scanTable := []
  current := ⟨[], List.replicate 6 0, 0, 0, .open, false, false⟩
  haveCurrent := false
  currentAid := 0
  ourMac := List.replicate 6 0
  lastError := ""
  keys := ⟨false, List.replicate 16 0, List.replicate 16 0, List.replicate 16 0, List.replicate 32 0⟩
  txSequence := 0
  sent := []

/-- `wifi_attach`, with the address of the adapter. -/
def wifiAttach (w : Wifi) (mac : List UInt8) : Wifi :=
  { w with ops := true, ourMac := mac, state := .idle }

/-- `wifi_disconnect`. -/
def wifiDisconnect (w : Wifi) : Wifi × Except Errno Unit :=
  if ¬ w.ops then (w, .error .ENODEV)
  else if w.state ≠ .connected ∧ ¬ w.haveCurrent then (w, .ok ())
  else
    let w :=
      if w.haveCurrent then
        w.bump.tx (.mgmt (w.mgmtHeader fcSubDeauth w.current.bssid ++ putLe16 3))
      else w
    let zeroes (n : ℕ) : List UInt8 := List.replicate n 0
    ({ w with
        keys := ⟨false, zeroes 16, zeroes 16, zeroes 16, zeroes 32⟩
        haveCurrent := false
        state := .idle }, .ok ())

end Wos.Net
