import Mathlib.Data.Finset.Card
import Mathlib.Data.List.MinMax
import Mathlib.Data.List.Sort
import Wos.Net.WifiLink

/-!
# What a scan finds

The table of networks that `scan_record` and `scan_sort` of `kernel/net/wifi.c` make of what was
observed: one entry a name, the strongest observation of it as long as the names fit.

`read_security` classifies a network by its RSN element, and `wifi_connect` refuses those it takes
for WPA3. A comment there says that access points in transition from WPA2 offer both suites and are
not refused. They are: one suite of SAE is enough to be taken for WPA3.

## Main definitions

* `strongest`: the first of the strongest observations of a name;
* `Keeps`: what the table holds after some observations;
* `RsnComplete`, `OffersCipher`, `OffersAkm`: RSN elements and the suites in them.

## Main results

* `scan_keeps_strongest`: the table after any observations and the sort;
* `mixed_mode_iff`: which networks are classified as they should be.
-/

namespace Wos.Net

open List Option

variable {observed table : List WifiNetwork} {seen e : WifiNetwork}

/-- The strongest observation of a name, the earliest among equals. -/
def strongest (observed : List WifiNetwork) (name : List UInt8) : Option WifiNetwork :=
  @List.argmax _ ℤ Int.instLinearOrder.toPreorder Int.instLinearOrder.toDecidableLT (·.signal)
    (observed.filter (·.ssid = name))

lemma of_strongest {name : List UInt8} (h : strongest observed name = some e) :
    e ∈ observed ∧ e.ssid = name := by
  simpa using mem_filter.mp (argmax_mem h)

/-- One more observation, of this name or of another one. -/
lemma strongest_snoc (observed : List WifiNetwork) (seen : WifiNetwork) (name : List UInt8) :
    strongest (observed ++ [seen]) name = if seen.ssid = name then
      (strongest observed name).elim (some seen) fun c =>
        if c.signal < seen.signal then some seen else some c
      else strongest observed name := by
  rw [strongest, strongest, filter_append]
  split_ifs with hname
  · rw [filter_cons_of_pos (by simpa using hname), filter_nil, argmax_concat]
    cases argmax (·.signal) (observed.filter (·.ssid = name)) <;> rfl
  · rw [filter_cons_of_neg (by simpa using hname), filter_nil, append_nil]

/-! ## Recording a network -/

/-- There is no entry of that name and no room for one. -/
def Crowded (table : List WifiNetwork) (seen : WifiNetwork) : Prop :=
  (∀ e ∈ table, e.ssid ≠ seen.ssid) ∧ scanMax ≤ table.length

/-- The entries `rest` stay beside `seen`: all but a weaker one of its name, if names fit. -/
structure Joins (table : List WifiNetwork) (seen : WifiNetwork) (rest : List WifiNetwork) :
    Prop where
  /-- Nothing else comes. -/
  sublist : rest.Sublist table
  /-- There is room for one more. -/
  length_lt : rest.length < scanMax
  /-- None has the name of `seen`. -/
  other : ∀ e ∈ rest, e.ssid ≠ seen.ssid
  /-- When names fit, only a weaker one of its name goes. -/
  kept : Crowded table seen ∨ ∀ e ∈ table, e ∈ rest ∨ e.ssid = seen.ssid ∧ e.signal < seen.signal

section Record

variable (hnodup : (table.map (·.ssid)).Nodup) (hlen : table.length ≤ scanMax)
include hnodup hlen

/-- An entry is replaced: the one of that name, or one of all the others. -/
lemma joins_eraseIdx {i : ℕ} (hi : i < table.length)
    (hwhy : Crowded table seen ∨ table[i].ssid = seen.ssid ∧ table[i].signal < seen.signal) :
    Joins table seen (table.eraseIdx i) := by
  have hperm := getElem_cons_eraseIdx_perm hi
  have hsub : (table.eraseIdx i).Sublist table := eraseIdx_sublist ..
  refine ⟨hsub, ?_, fun e he => ?_, hwhy.imp_right fun hwhy e he => ?_⟩
  · rw [← hperm.length_eq] at hlen
    exact hlen
  · rcases hwhy with ⟨hnew, -⟩ | ⟨hname, -⟩
    · exact hnew e (hsub.subset he)
    · rw [← (hperm.map _).nodup_iff, map_cons, nodup_cons] at hnodup
      exact fun he' => hnodup.1 (mem_map.mpr ⟨e, he, he'.trans hname.symm⟩)
  · rcases mem_cons.mp (hperm.mem_iff.mpr he) with rfl | he
    · exact .inr hwhy
    · exact .inl he

/-- `scan_record` leaves the table, or puts `seen` in it. -/
lemma scanRecord_spec (seen : WifiNetwork) :
    (scanRecord table seen = table ∧
      (Crowded table seen ∨ ∃ e ∈ table, e.ssid = seen.ssid ∧ seen.signal ≤ e.signal)) ∨
    ∃ rest, (scanRecord table seen).Perm (seen :: rest) ∧ Joins table seen rest := by
  rw [scanRecord]
  split
  next i hfind =>
    obtain ⟨hi, hname, -⟩ := findIdx?_eq_some_iff_getElem.mp hfind
    have hname : table[i].ssid = seen.ssid := by simpa using hname
    rw [getElem?_eq_getElem hi, any_some]
    split
    next h =>
      refine .inr ⟨_, set_perm_cons_eraseIdx hi seen, joins_eraseIdx hnodup hlen hi ?_⟩
      exact .inr ⟨hname, by simpa using h⟩
    next h => exact .inl ⟨rfl, .inr ⟨_, getElem_mem hi, hname, by simpa using h⟩⟩
  next hfind =>
    have hnew : ∀ e ∈ table, e.ssid ≠ seen.ssid := by simpa using hfind
    split
    next hroom =>
      exact .inr ⟨table, perm_append_singleton .., List.Sublist.refl _, hroom, hnew,
        .inr fun e he => .inl he⟩
    next hfull =>
      have hcrowded : Crowded table seen := ⟨hnew, not_lt.mp hfull⟩
      split
      next h =>
        obtain ⟨e, he, -⟩ := (any_eq_true _ _).mp h
        obtain ⟨hi, -⟩ := List.getElem?_eq_some_iff.mp he
        exact .inr ⟨_, set_perm_cons_eraseIdx hi seen,
          joins_eraseIdx hnodup hlen hi (.inl hcrowded)⟩
      next => exact .inl ⟨rfl, .inl hcrowded⟩

end Record

/-! ## The table after some observations -/

/-- What the table holds after some observations. -/
structure Keeps (observed table : List WifiNetwork) : Prop where
  /-- No name twice. -/
  nodup : (table.map (·.ssid)).Nodup
  /-- No more than the table has room for. -/
  length_le : table.length ≤ scanMax
  /-- Nothing was made up. -/
  subset : table ⊆ observed
  /-- When names fit, it has the strongest of each name. -/
  best : (observed.map (·.ssid)).toFinset.card ≤ scanMax →
    ∀ e, e ∈ table ↔ strongest observed e.ssid = some e

namespace Keeps

/-- If the names fit with one more, they fitted before, and there is room. -/
lemma best_before (h : Keeps observed table)
    (hcard : ((observed ++ [seen]).map (·.ssid)).toFinset.card ≤ scanMax) :
    ¬ Crowded table seen ∧ ∀ e, e ∈ table ↔ strongest observed e.ssid = some e := by
  have hmono : ∀ l : List WifiNetwork, l ⊆ observed ++ [seen] →
      (l.map (·.ssid)).toFinset.card ≤ scanMax := fun l hl => by
    refine le_trans (Finset.card_le_card fun name hname => ?_) hcard
    exact mem_toFinset.mpr (map_subset _ hl (mem_toFinset.mp hname))
  refine ⟨fun ⟨hnew, hfull⟩ => ?_, h.best (hmono _ (subset_append_left ..))⟩
  have hle := hmono (seen :: table)
    (cons_subset.mpr ⟨by simp, subset_append_of_subset_left _ h.subset⟩)
  have hnodup : ((seen :: table).map (·.ssid)).Nodup :=
    nodup_cons.mpr ⟨by simpa using hnew, h.nodup⟩
  rw [toFinset_card_of_nodup hnodup, length_map, length_cons] at hle
  omega

/-- One more observation. -/
lemma record (h : Keeps observed table) (seen : WifiNetwork) :
    Keeps (observed ++ [seen]) (scanRecord table seen) := by
  rcases scanRecord_spec h.nodup h.length_le seen with ⟨heq, hwhy⟩ | ⟨rest, hperm, hj⟩
  · rw [heq]
    refine ⟨h.nodup, h.length_le, subset_append_of_subset_left _ h.subset, fun hcard => ?_⟩
    obtain ⟨hroom, hbest⟩ := h.best_before hcard
    obtain ⟨c, hc, hname, hsignal⟩ := hwhy.resolve_left hroom
    intro e
    rw [hbest e, strongest_snoc]
    split_ifs with he
    · rw [← he, ← hname, (hbest c).mp hc, elim_some, if_neg (not_lt.mpr hsignal)]
    · rfl
  · have hmem : ∀ {e}, e ∈ scanRecord table seen ↔ e = seen ∨ e ∈ rest := by
      simp [hperm.mem_iff]
    refine ⟨?_, ?_, fun e he => ?_, fun hcard => ?_⟩
    · rw [(hperm.map _).nodup_iff, map_cons, nodup_cons]
      exact ⟨by simpa using hj.other, h.nodup.sublist (hj.sublist.map _)⟩
    · rw [hperm.length_eq]
      exact hj.length_lt
    · rcases hmem.mp he with rfl | he
      · exact mem_append_right _ (mem_singleton_self _)
      · exact mem_append_left _ (h.subset (hj.sublist.subset he))
    obtain ⟨hroom, hbest⟩ := h.best_before hcard
    have hkept := hj.kept.resolve_left hroom
    have hseen : strongest (observed ++ [seen]) seen.ssid = some seen := by
      rw [strongest_snoc, if_pos rfl]
      cases hc : strongest observed seen.ssid with
      | none => rfl
      | some c =>
        -- the entry this name had was weaker
        have hname := (of_strongest hc).2
        rcases hkept c ((hbest c).mpr (hname ▸ hc)) with hc | ⟨-, hweaker⟩
        · exact absurd hname (hj.other c hc)
        · exact if_pos hweaker
    intro e
    rw [hmem]
    by_cases hname : seen.ssid = e.ssid
    · rw [← hname, hseen, some_inj]
      exact ⟨fun h => (h.resolve_right fun he => hj.other e he hname.symm).symm,
        fun h => .inl h.symm⟩
    · rw [strongest_snoc, if_neg hname, ← hbest e]
      refine ⟨fun h => hj.sublist.subset (h.resolve_left fun h => hname (h ▸ rfl)), fun he => ?_⟩
      exact .inr ((hkept e he).resolve_right fun h => hname h.1.symm)

lemma fold (observed : List WifiNetwork) : Keeps observed (observed.foldl scanRecord []) := by
  induction observed using reverseRecOn with
  | nil => exact ⟨nodup_nil, Nat.zero_le _, List.Subset.refl _, fun _ e => by simp [strongest]⟩
  | append_singleton observed seen ih =>
    rw [foldl_append]
    exact ih.record seen

end Keeps

/-! ## Sorting -/

/-- `scan_sort` is the insertion sort of the library, from the end of the table. -/
lemma scanSort_eq (table : List WifiNetwork) :
    scanSort table = (table.reverse.insertionSort (·.signal ≤ ·.signal)).reverse := by
  induction table using reverseRecOn with
  | nil => rfl
  | append_singleton table key ih =>
    rw [reverse_append, reverse_singleton, singleton_append,
      insertionSort_cons_eq_take_drop, scanSort, foldl_append]
    change insertBySignal (scanSort table) key = _
    rw [ih, insertBySignal, reverse_reverse]
    simp

/-- After any observations and the sort, a name has one entry, there are at most `WIFI_SCAN_MAX`, the
strongest first; and if that many names were seen at most, each has its strongest observation. -/
theorem scan_keeps_strongest (observed : List WifiNetwork) :
    ((scanSort (observed.foldl scanRecord [])).map (·.ssid)).Nodup ∧
    (scanSort (observed.foldl scanRecord [])).length ≤ scanMax ∧
    (scanSort (observed.foldl scanRecord [])).Pairwise (·.signal ≥ ·.signal) ∧
    ((observed.map (·.ssid)).toFinset.card ≤ scanMax → ∀ seen ∈ observed,
      ∃ e ∈ scanSort (observed.foldl scanRecord []),
        e.ssid = seen.ssid ∧ strongest observed seen.ssid = some e) := by
  obtain ⟨hnodup, hlen, -, hbest⟩ := Keeps.fold observed
  have hperm : (scanSort (observed.foldl scanRecord [])).Perm (observed.foldl scanRecord []) := by
    rw [scanSort_eq]
    exact (reverse_perm _).trans ((perm_insertionSort ..).trans (reverse_perm _))
  refine ⟨(hperm.map _).nodup_iff.mpr hnodup, hperm.length_eq.trans_le hlen, ?_,
    fun hcard seen hseen => ?_⟩
  · rw [scanSort_eq, pairwise_reverse]
    exact pairwise_insertionSort _ _
  cases he : strongest observed seen.ssid with
  | none =>
    exact absurd (argmax_eq_none.mp he)
      (ne_nil_of_mem (mem_filter.mpr ⟨hseen, decide_eq_true rfl⟩))
  | some e =>
    have hname := (of_strongest he).2
    exact ⟨e, hperm.mem_iff.mpr ((hbest hcard e).mpr (hname ▸ he)), hname, rfl⟩

/-! ## What a beacon offers -/

/-- Where an RSN element counts its authentication suites: behind the pairwise ciphers. -/
def akmPos (rsn : List UInt8) : ℕ := 8 + 4 * getLe16 rsn 6

/-- An RSN element that holds the suites it counts. -/
def RsnComplete (rsn : List UInt8) : Prop :=
  akmPos rsn + 2 + 4 * getLe16 rsn (akmPos rsn) ≤ rsn.length

/-- A pairwise cipher is among those of the element. -/
def OffersCipher (rsn cipher : List UInt8) : Prop :=
  ∃ i < getLe16 rsn 6, field rsn (8 + 4 * i) 4 = cipher

/-- An authentication suite is among those of the element. -/
def OffersAkm (rsn akm : List UInt8) : Prop :=
  ∃ i < getLe16 rsn (akmPos rsn), field rsn (akmPos rsn + 2 + 4 * i) 4 = akm

lemma mem_suites {suite : List UInt8} {count : ℕ} {b : List UInt8} (h : 4 * count ≤ b.length) :
    suite ∈ suites count b ↔ ∃ i < count, field b (4 * i) 4 = suite := by
  induction count generalizing b with
  | zero => simp [suites]
  | succ count ih =>
    have hdrop : 4 * count ≤ (b.drop 4).length := by
      rw [length_drop]
      omega
    rw [suites, if_neg (by omega), mem_cons, ih hdrop, Nat.exists_lt_succ_left]
    refine or_congr eq_comm (exists_congr fun i => and_congr_right fun _ => ?_)
    rw [field, field, drop_drop, Nat.mul_succ, Nat.add_comm]

/-- A complete element is WPA3 if and only if it offers SAE. -/
lemma readSecurity_eq_wpa3 {ies rsn : List UInt8} (hfind : findIe ies ieRsn = some rsn)
    (hrsn : RsnComplete rsn) (capability : ℕ) :
    readSecurity ies capability = .wpa3 ↔ OffersAkm rsn rsnAkmSae := by
  rw [RsnComplete, akmPos] at hrsn
  have hfound : findRsn ies = some rsn := by
    rw [findRsn, hfind, filter_some, if_pos (by simp; omega)]
  have hsuites : rsnAkmSae ∈ suites (getLe16 rsn (akmPos rsn)) (rsn.drop (akmPos rsn + 2)) ↔
      OffersAkm rsn rsnAkmSae := by
    rw [mem_suites (by rw [length_drop, akmPos]; omega), OffersAkm]
    simp [field]
  rw [readSecurity, hfound, ← hsuites]
  dsimp only
  rw [if_neg (by omega), akmPos]
  split_ifs with h
  · exact iff_of_true rfl h
  · exact iff_of_false (by decide) h

/-- A network is never refused as WPA3 where it offers CCMP and the pre-shared key, and only SAE
without the pre-shared key makes it WPA3, if and only if it does not offer both suites. -/
theorem mixed_mode_iff (rx : Rx) {rsn : List UInt8}
    (hfind : findIe (rx.bytes.drop (hdrLen + 12)) ieRsn = some rsn) (hrsn : RsnComplete rsn) :
    ((OffersCipher rsn rsnCipherCcmp → OffersAkm rsn rsnAkmPsk → refusal (beaconNetwork rx) ≠
        some "this network requires WPA3, whose handshake is not implemented") ∧
      ((beaconNetwork rx).security = .wpa3 → OffersAkm rsn rsnAkmSae ∧ ¬ OffersAkm rsn rsnAkmPsk)) ↔
    ¬ (OffersAkm rsn rsnAkmPsk ∧ OffersAkm rsn rsnAkmSae) := by
  have hwpa3 : (beaconNetwork rx).security = .wpa3 ↔ OffersAkm rsn rsnAkmSae :=
    readSecurity_eq_wpa3 hfind hrsn _
  rw [hwpa3]
  constructor
  · rintro ⟨-, hclass⟩ ⟨hpsk, hsae⟩
    exact (hclass hsae).2 hpsk
  intro hnot
  refine ⟨fun _ hpsk => ?_, fun hsae => ⟨hsae, fun hpsk => hnot ⟨hpsk, hsae⟩⟩⟩
  have hne : (beaconNetwork rx).security ≠ .wpa3 := fun h => hnot ⟨hpsk, hwpa3.mp h⟩
  rw [refusal, if_neg hne]
  split_ifs <;> simp

/-- The beacon of a network with some authentication suites. -/
def suitesBeacon (akm : List (List UInt8)) : Rx :=
  Scene.apMgmt fcSubBeacon (List.replicate 10 0 ++ putLe16 0x11 ++ [ieSsid, 4] ++ Scene.ssid ++
    [ieRsn, UInt8.ofNat (14 + 4 * akm.length)] ++ putLe16 1 ++ rsnCipherCcmp ++ putLe16 1 ++
    rsnCipherCcmp ++ putLe16 akm.length ++ akm.flatten)

/-- A network that offers the pre-shared key alone. -/
theorem mixed_mode_psk : refusal (beaconNetwork (suitesBeacon [rsnAkmPsk])) ≠
    some "this network requires WPA3, whose handshake is not implemented" :=
  ((mixed_mode_iff (suitesBeacon [rsnAkmPsk]) rfl (by unfold RsnComplete; decide)).mpr
    (by unfold OffersAkm; decide)).1 (by unfold OffersCipher; decide) (by unfold OffersAkm; decide)

/-- A network in transition from WPA2 to WPA3 offers both suites, and is refused. -/
theorem mixed_mode_refused : (beaconNetwork (suitesBeacon [rsnAkmPsk, rsnAkmSae])).ccmp = true ∧
    refusal (beaconNetwork (suitesBeacon [rsnAkmPsk, rsnAkmSae])) =
      some "this network requires WPA3, whose handshake is not implemented" := by
  decide

end Wos.Net
