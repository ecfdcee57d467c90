import Wos.Wfs.Release
import Wos.Wfs.Dir

/-!
# The entries of a directory

The contents of a directory, read as an array of 32-byte entries, and what the directory functions
of `kernel/fs/wfs.c` do to that array. An entry never crosses a block, so writing one either stores
all of it or leaves the directory as it was; this is why `dir_add` and `dir_remove` have no third
outcome on a well-formed directory.

## Main definitions

* `View.dirent`, `View.findEntry`, `View.child`: a directory as an array and as a map of names;
* `View.DirOk`, `View.Dense`: a well-formed directory, and one without holes;
* `Agree`: two views hold the same file;
* `EntrySet`: one entry of a directory was replaced.

## Main results

* `dirSearch_spec`: the loop the directory functions share finds the first entry it looks for;
* `writeEntry_spec`: writing an entry stores it or changes nothing;
* `dirFind_spec`, `dirAdd_spec`, `dirRemove_spec`, `dirIsEmpty_spec`.
-/

namespace Wos.Wfs

open Dirent View Option List

/-! ## A directory as an array of entries -/

/-- An entry is decoded from the 32 bytes it occupies. -/
lemma Dirent.decode_congr {a b : Buf} (h : ∀ k < 32, a k = b k) : decode a = decode b := by
  have hname : a.slice 4 28 = b.slice 4 28 := Buf.slice_congr fun t ht => h (4 + t) (by omega)
  rw [decode, decode, Buf.word_congr fun k hk => h k (by omega), hname]

/-- The entry an erased slot holds. -/
lemma Dirent.decode_zero : decode Buf.zero = ⟨0, []⟩ := by
  rw [decode, Buf.word_zero]
  rfl

/-- Entry `k` of a directory. -/
def View.dirent (c : View) (d k : ℕ) : Dirent := Dirent.decode ((c.contents d).drop (32 * k))

/-- The number of entries of a directory, free ones included. -/
def View.entryCount (c : View) (d : ℕ) : ℕ := (c.inodes d).size / 32

/-- The first entry that satisfies `hit`. -/
def View.findEntry (c : View) (d : ℕ) (hit : Dirent → Bool) : Option ℕ :=
  (List.range (c.entryCount d)).find? fun k => hit (c.dirent d k)

/-- The inode a name stands for in a directory. -/
def View.child (c : View) (d : ℕ) (name : Name) : Option ℕ :=
  (c.findEntry d (·.isNamed name)).map fun k => (c.dirent d k).ino

/-- A well-formed directory: whole entries, and no name twice. -/
structure View.DirOk (c : View) (d : ℕ) : Prop where
  /-- It is an array of whole entries. -/
  whole : (c.inodes d).size % 32 = 0
  /-- It is no longer than a file may be. -/
  size_le : (c.inodes d).size ≤ maxFileSize
  /-- No name has two entries. -/
  distinct : ∀ j k name, j < c.entryCount d → k < c.entryCount d →
    (c.dirent d j).isNamed name = true → (c.dirent d k).isNamed name = true → j = k

/-- A file without holes. -/
def View.Dense (c : View) (i : ℕ) : Prop :=
  ∀ k < (c.inodes i).size, ∃ p, Slot.ofIndex (k / 1024) = some p ∧ c.slot i p ≠ 0

variable {name : Name}

lemma Dirent.isNamed_iff {e : Dirent} : e.isNamed name = true ↔ e.ino ≠ 0 ∧ e.name = name := by
  simp [isNamed]

variable {k i : ℕ}

namespace View

variable {c c' : View} {d : ℕ}

lemma findEntry_eq_some {hit : Dirent → Bool} (h : c.findEntry d hit = some k) :
    k < c.entryCount d ∧ hit (c.dirent d k) = true :=
  ⟨mem_range.mp (mem_of_find?_eq_some h), by simpa using find?_some h⟩

lemma findEntry_eq_none {hit : Dirent → Bool} :
    c.findEntry d hit = none ↔ ∀ k < c.entryCount d, hit (c.dirent d k) = false := by
  simp [findEntry, find?_eq_none]

/-- In a well-formed directory any entry with the name is the one that is found. -/
lemma DirOk.child_eq_some_iff (h : c.DirOk d) :
    c.child d name = some i ↔
      ∃ k < c.entryCount d, (c.dirent d k).isNamed name = true ∧ (c.dirent d k).ino = i := by
  rw [child, map_eq_some_iff]
  constructor
  · rintro ⟨k, hk, rfl⟩
    obtain ⟨hlt, hnamed⟩ := findEntry_eq_some hk
    exact ⟨k, hlt, hnamed, rfl⟩
  rintro ⟨k, hlt, hnamed, rfl⟩
  cases hfind : c.findEntry d (·.isNamed name) with
  | none =>
    have hfalse := findEntry_eq_none.mp hfind k hlt
    simp [hnamed] at hfalse
  | some j =>
    obtain ⟨hj, hjnamed⟩ := findEntry_eq_some hfind
    exact ⟨j, rfl, by rw [h.distinct j k name hj hlt hjnamed hnamed]⟩

lemma child_eq_none_iff :
    c.child d name = none ↔ ∀ k < c.entryCount d, (c.dirent d k).isNamed name = false := by
  rw [child, map_eq_none_iff, findEntry_eq_none]

/-- An entry in use lies in a block, since a hole reads as zeroes. -/
lemma slot_ne_zero_of_dirent {p : Slot} (hp : Slot.ofIndex (32 * k / 1024) = some p)
    (h : (c.dirent d k).ino ≠ 0) : c.slot d p ≠ 0 := by
  intro hzero
  have hhole : c.dirent d k = Dirent.decode Buf.zero := by
    refine decode_congr fun t ht => ?_
    have hdiv : (32 * k + t) / 1024 = 32 * k / 1024 := by omega
    rw [Buf.drop_apply, contents, byteAt, hdiv, hp]
    exact if_pos hzero
  rw [hhole, decode_zero] at h
  exact h rfl

end View

/-! ## Two views that hold the same file -/

/-- The file of inode `i` is the same in both views. It may have gained blocks past its end, as
after a write that failed. -/
structure Agree (c c' : View) (i : ℕ) : Prop where
  type_eq : (c'.inodes i).type = (c.inodes i).type
  size_eq : (c'.inodes i).size = (c.inodes i).size
  byteAt_eq : ∀ k, c'.byteAt i k = c.byteAt i k
  slot_kept : ∀ p, c.slot i p ≠ 0 → c'.slot i p ≠ 0

namespace Agree

variable {c c' c'' : View} {i : ℕ}

lemma refl (c : View) (i : ℕ) : Agree c c i := ⟨rfl, rfl, fun _ => rfl, fun _ h => h⟩

section Agreeing

variable (h : Agree c c' i)

include h

lemma trans (h' : Agree c' c'' i) : Agree c c'' i where
  type_eq := h'.type_eq.trans h.type_eq
  size_eq := h'.size_eq.trans h.size_eq
  byteAt_eq k := (h'.byteAt_eq k).trans (h.byteAt_eq k)
  slot_kept p hp := h'.slot_kept p (h.slot_kept p hp)

lemma dirent_eq (k : ℕ) : c'.dirent i k = c.dirent i k :=
  decode_congr fun t _ => h.byteAt_eq (32 * k + t)

lemma entryCount_eq : c'.entryCount i = c.entryCount i := by
  rw [View.entryCount, h.size_eq, View.entryCount]

lemma findEntry_eq (hit : Dirent → Bool) : c'.findEntry i hit = c.findEntry i hit := by
  simp only [View.findEntry, h.entryCount_eq, h.dirent_eq]

lemma child_eq (name : Name) : c'.child i name = c.child i name := by
  simp only [View.child, h.findEntry_eq, h.dirent_eq]

lemma dirOk (hd : c.DirOk i) : c'.DirOk i where
  whole := by rw [h.size_eq, hd.whole]
  size_le := by rw [h.size_eq]; exact hd.size_le
  distinct j k name hj hk hnj hnk := by
    rw [h.entryCount_eq] at hj hk
    rw [h.dirent_eq] at hnj hnk
    exact hd.distinct j k name hj hk hnj hnk

lemma dense (hd : c.Dense i) : c'.Dense i := by
  intro k hk
  rw [h.size_eq] at hk
  obtain ⟨p, hp, hp0⟩ := hd k hk
  exact ⟨p, hp, h.slot_kept p hp0⟩

end Agreeing

end Agree

variable {j : ℕ} {c c' : View}

/-- Writing to one inode leaves the other files alone. -/
lemma Touches.agree (h : Touches i c c') (hj : j ≠ i) (hl : c.Live j) : Agree c c' j :=
  ⟨h.type_eq_all j, by rw [h.inodes_eq j hj], fun k => h.byteAt_other j k hj hl,
    fun p hp => by rwa [h.slot_other j p hj hl]⟩

/-- Where the data blocks and an inode are the same, so is its file. -/
lemma Agree.of_eq (hdata : c'.data = c.data) (hinode : c'.inodes i = c.inodes i) : Agree c c' i :=
  ⟨by rw [hinode], by rw [hinode], byteAt_congr hinode hdata,
    fun p hp => by rwa [slot_congr hinode hdata]⟩

/-- Emptying one inode leaves the other files alone. -/
lemma Emptied.agree (h : Emptied i c c') (hj : j ≠ i) : Agree c c' j :=
  .of_eq h.data_eq (h.inodes_eq j hj)

/-! ## Looking through a directory -/

section Search

variable {v : Volume} (hv : Healthy v) (hc : v.view.Consistent) {d : ℕ} (hl : v.view.Live d)
  (hwhole : (v.view.inodes d).size % 32 = 0) (hle : (v.view.inodes d).size ≤ maxFileSize)

include hv hc hl hwhole hle

/-- From entry `j` on, the loop finds what a search of the remaining entries finds. -/
lemma dirScan_spec (hit : Dirent → Bool) (fuel : ℕ) (hj : j ≤ v.view.entryCount d)
    (hfuel : v.view.entryCount d < j + fuel) (ent : Buf) :
    dirScan v d (v.view.inodes d).size hit fuel (32 * j) ent =
      ((range' j (v.view.entryCount d - j)).find? fun k => hit (v.view.dirent d k)).map
        fun k => (32 * k, v.view.dirent d k) := by
  have hsize : (v.view.inodes d).size = 32 * v.view.entryCount d := by
    rw [View.entryCount]
    omega
  have hmax := maxFileSize_eq
  -- the induction is on the fuel; what is still ahead shrinks with it
  induction fuel generalizing j ent with
  | zero => omega
  | succ fuel ih =>
    rw [dirScan]
    by_cases hend : (v.view.inodes d).size ≤ 32 * j
    · rw [if_pos hend, show v.view.entryCount d - j = 0 by omega]
      rfl
    rw [if_neg hend, readFile_spec hv hc hl hle (by omega)]
    have hmin : min 32 ((v.view.inodes d).size - 32 * j) = 32 := by omega
    have hne : (v.view.contents d).slice (32 * j) 32 ≠ [] :=
      ne_nil_of_length_pos (by rw [Buf.length_slice]; norm_num)
    have hent : Dirent.decode (ent.copy 0 (Buf.ofList ((v.view.contents d).slice (32 * j) 32))
        32) = v.view.dirent d j := by
      refine decode_congr fun k hk => ?_
      rw [Buf.copy_apply_of_lt (Nat.zero_le k) (by omega), Nat.sub_zero, Buf.ofList_slice hk]
      rfl
    dsimp only
    rw [hmin, if_neg hne, Buf.length_slice, hent,
      show v.view.entryCount d - j = (v.view.entryCount d - (j + 1)) + 1 by omega,
      range'_succ, find?_cons]
    cases hhit : hit (v.view.dirent d j) with
    | true => rfl
    | false => exact ih (j := j + 1) (by omega) (by omega) _

/-- The loop of the directory functions finds the first entry that satisfies `hit`. -/
theorem dirSearch_spec (hit : Dirent → Bool) :
    dirSearch v d (v.view.inodes d).size hit =
      (v.view.findEntry d hit).map fun k => (32 * k, v.view.dirent d k) := by
  have h := dirScan_spec hv hc hl hwhole hle hit ((v.view.inodes d).size / 32 + 1)
    (Nat.zero_le _) (by rw [View.entryCount]; omega) v.env.junk
  rw [Nat.mul_zero, Nat.sub_zero, ← range_eq_range'] at h
  exact h

end Search

/-! ## Writing one entry -/

/-- Entry `k` of directory `d` was replaced by `e`; the directory grew if `k` was past its end. -/
structure EntrySet (c c' : View) (d k : ℕ) (e : Dirent) : Prop where
  /-- The directory grows, if the entry was past its end. -/
  size_eq : (c'.inodes d).size = max (c.inodes d).size (32 * k + 32)
  /-- The entry is there. -/
  self : c'.dirent d k = e
  /-- Other entries stay. -/
  other : ∀ j, j ≠ k → c'.dirent d j = c.dirent d j
  /-- It lies in a block of the directory. -/
  block : ∃ p, Slot.ofIndex (32 * k / 1024) = some p ∧ c'.slot d p ≠ 0

/-- The 32 bytes of an entry were stored. -/
lemma EntrySet.of_stored {d : ℕ} {buf : Buf}
    (hsize : (c'.inodes d).size = max (c.inodes d).size (32 * k + 32))
    (hstored : Stored d (32 * k) buf c c' 0 32) : EntrySet c c' d k (Dirent.decode buf) := by
  refine ⟨hsize, ?_, fun j hj => ?_, hstored.blocks (32 * k) (by omega) (by omega)⟩
  · refine decode_congr fun t ht => ?_
    rw [Buf.drop_apply, View.contents, hstored.bytes, if_pos (by omega)]
    congr 1
    omega
  · refine decode_congr fun t ht => ?_
    rw [Buf.drop_apply, View.contents, hstored.bytes, if_neg (by omega)]
    rfl

lemma View.DirOk.size_eq {d : ℕ} (h : c.DirOk d) : (c.inodes d).size = 32 * c.entryCount d := by
  have hwhole := h.whole
  rw [View.entryCount]
  omega

section Write

variable {v : Volume} (hv : Healthy v) (hc : v.view.Consistent) {d : ℕ} (hl : v.view.Live d)
  (hd : v.view.DirOk d)

include hv hc hl hd

/-- Writing an entry stores all of it, or leaves the directory as it was. The latter happens only
at the largest size of a file and where there is no room for the block, and at most the pointer
blocks on the way to that block are new. -/
theorem writeEntry_spec (hk : k ≤ v.view.entryCount d) (buf : Buf) :
    ∃ r v', writeFile v d (32 * k) buf 32 = (r, v') ∧ v'.frame = v.frame ∧
      Touches d v.view v'.view ∧
      (∀ q, q ∉ Slot.pathOf (32 * k / 1024) → v'.view.slot d q = v.view.slot d q) ∧
      ((r = .ok 32 ∧ 32 * k + 32 ≤ maxFileSize ∧ EntrySet v.view v'.view d k (Dirent.decode buf)) ∨
        ((∃ e, r = .error e) ∧ Agree v.view v'.view d ∧
          (maxFileSize < 32 * k + 32 ∨ ¬ v.view.CanMap d (32 * k / 1024)) ∧
          ∀ q, Slot.ofIndex (32 * k / 1024) = some q → v'.view.slot d q = v.view.slot d q)) := by
  have hsize := hd.size_eq
  have hle := hd.size_le
  have hmax := maxFileSize_eq
  have hblocks : maxFileBlocks = 65802 := rfl
  obtain ⟨r, v', hwrite, hframe, htouch, hcase⟩ := writeFile_spec hv hc hl (32 * k) buf 32
  rw [Nat.mod_eq_of_lt (show 32 * k + 32 < 4294967296 by omega)] at hcase
  refine ⟨r, v', hwrite, hframe, htouch, ?_⟩
  rcases hcase with ⟨rfl, rfl, hbig⟩ | ⟨hfits, done, hw⟩
  · -- the directory has reached the largest size of a file
    exact ⟨fun _ _ => rfl, .inr ⟨⟨_, rfl⟩, .refl _ d, .inl hbig, fun _ _ => rfl⟩⟩
  have hdone := hw.le
  -- the entry lies in one block
  have hindex : ∀ t < 32, (32 * k + t) % 4294967296 / 1024 = 32 * k / 1024 := fun t _ => by omega
  have hmod : (32 * k + done) % 4294967296 = 32 * k + done := Nat.mod_eq_of_lt (by omega)
  have hstored := hw.stored (by omega)
  have hsize' := hw.size_eq
  rw [hmod] at hsize'
  refine ⟨fun q hq => hw.confined q fun t _ ht => by rwa [hindex t ht], ?_⟩
  by_cases hall : done = 32
  · subst hall
    exact .inl ⟨hw.ok (by omega), hfits, .of_stored hsize' hstored⟩
  have hlt : 32 * k / 1024 < maxFileBlocks := by omega
  have hstart := hw.started (by norm_num)
  rw [show 32 * k % 4294967296 / 1024 = 32 * k / 1024 from hindex 0 (by norm_num)] at hstart
  have hshort := hw.short (by omega)
  rw [hindex done (by omega)] at hshort
  -- the block is missing even now, so nothing was stored in it
  have habsent : ∀ p, Slot.ofIndex (32 * k / 1024) = some p → v'.view.slot d p = 0 := by
    intro p hp
    rcases hshort with hnone | ⟨q, hq, hq0, -⟩
    · rw [hp] at hnone
      cases hnone
    · obtain rfl := mem_unique hp hq
      exact hq0
  have hnothing : ¬ 0 < done := by
    intro hpos
    obtain ⟨p, hp, hp0⟩ := hstored.blocks (32 * k) (by omega) (by omega)
    exact hp0 (habsent p hp)
  obtain rfl : done = 0 := Nat.eq_zero_of_not_pos hnothing
  have hroom := fun hcan => hnothing (hstart.iff.mpr hcan)
  refine .inr ⟨hw.error rfl (by norm_num), ⟨htouch.type_eq, by omega, fun t => ?_, ?_⟩,
    .inr hroom, fun q hq => ?_⟩
  · rw [hstored.bytes, if_neg (by omega)]
  · intro q hq0
    rwa [htouch.slot_kept q hq0]
  · obtain ⟨p, hp, hp0⟩ := slot_eq_zero_of_not_canMap hlt hroom
    obtain rfl := mem_unique hp hq
    rw [habsent p hp, hp0]

end Write

/-! ## The names after an entry was replaced -/

/-- Directory `d` is well formed and maps `name` to `o`, every other name to what it was. -/
structure Binds (c c' : View) (d : ℕ) (name : Name) (o : Option ℕ) : Prop where
  dirOk : c'.DirOk d
  dense : c.Dense d → c'.Dense d
  child_eq : ∀ n, c'.child d n = if n = name then o else c.child d n

namespace EntrySet

variable {c c' : View} {d k : ℕ} {e : Dirent} (h : EntrySet c c' d k e) (hd : c.DirOk d)
  (hk : k ≤ c.entryCount d)

include h in
lemma entryCount_eq : c'.entryCount d = max (c.entryCount d) (k + 1) := by
  rw [View.entryCount, h.size_eq, View.entryCount]
  omega

include h hk

/-- A name is found in the new entry or in one of the others. -/
lemma named_iff {n : Name} :
    (j < c'.entryCount d ∧ (c'.dirent d j).isNamed n = true) ↔
      (j = k ∧ e.isNamed n = true) ∨
        (j ≠ k ∧ j < c.entryCount d ∧ (c.dirent d j).isNamed n = true) := by
  rw [h.entryCount_eq]
  by_cases hj : j = k
  · subst hj
    rw [h.self]
    simp
  · rw [h.other j hj]
    have hlt : j < max (c.entryCount d) (k + 1) ↔ j < c.entryCount d := by omega
    simp [hj, hlt]

include hd

/-- The directory stays well formed unless the new entry repeats a name. -/
lemma dirOk (hmax : 32 * k + 32 ≤ maxFileSize)
    (hnew : ∀ j n, j ≠ k → j < c.entryCount d → (c.dirent d j).isNamed n = true →
      e.isNamed n = false) : c'.DirOk d where
  whole := by
    have hwhole := hd.whole
    rw [h.size_eq]
    omega
  size_le := by
    have hle := hd.size_le
    rw [h.size_eq]
    omega
  distinct i j n hi hj hni hnj := by
    rcases (h.named_iff hk).mp ⟨hi, hni⟩ with ⟨rfl, hei⟩ | ⟨hik, hilt, hni⟩ <;>
      rcases (h.named_iff hk).mp ⟨hj, hnj⟩ with ⟨rfl, hej⟩ | ⟨hjk, hjlt, hnj⟩
    · rfl
    · simp [hnew j n hjk hjlt hnj] at hei
    · simp [hnew i n hik hilt hni] at hej
    · exact hd.distinct i j n hilt hjlt hni hnj

/-- No hole is left behind. -/
lemma dense (hkept : ∀ p, c.slot d p ≠ 0 → c'.slot d p = c.slot d p) (hdense : c.Dense d) :
    c'.Dense d := by
  intro t ht
  by_cases hold : t < (c.inodes d).size
  · obtain ⟨p, hp, hp0⟩ := hdense t hold
    exact ⟨p, hp, by rwa [hkept p hp0]⟩
  -- past the old end there is only the entry itself, in one block
  have hwhole := hd.whole
  rw [View.entryCount] at hk
  rw [h.size_eq] at ht
  rw [show t / 1024 = 32 * k / 1024 by omega]
  exact h.block

/-- What is replaced had no name but this one, which no other entry has, and the new entry has it or
none. -/
lemma binds (hmax : 32 * k + 32 ≤ maxFileSize)
    (hkept : ∀ p, c.slot d p ≠ 0 → c'.slot d p = c.slot d p) {o : Option ℕ}
    (hnew : ∀ n i, e.isNamed n = true ∧ e.ino = i ↔ n = name ∧ o = some i)
    (hold : ∀ j < c.entryCount d, (c.dirent d j).isNamed name = true → j = k)
    (hgone : k < c.entryCount d → ∀ n, (c.dirent d k).isNamed n = true → n = name) :
    Binds c c' d name o := by
  have hok : c'.DirOk d := by
    refine h.dirOk hd hk hmax fun j n hjk hj hnj => Bool.eq_false_iff.mpr fun hen => ?_
    obtain ⟨rfl, -⟩ := (hnew n e.ino).mp ⟨hen, rfl⟩
    exact hjk (hold j hj hnj)
  refine ⟨hok, h.dense hd hk hkept, fun n => ext fun i => ?_⟩
  rw [hok.child_eq_some_iff]
  constructor
  · rintro ⟨j, hj, hnj, rfl⟩
    rcases (h.named_iff hk).mp ⟨hj, hnj⟩ with ⟨rfl, hen⟩ | ⟨hjk, hjlt, hnj⟩
    · obtain ⟨hn, ho⟩ := (hnew n e.ino).mp ⟨hen, rfl⟩
      rw [if_pos hn, h.self, ho]
    rw [if_neg, hd.child_eq_some_iff]
    · exact ⟨j, hjlt, hnj, by rw [h.other j hjk]⟩
    · rintro rfl
      exact hjk (hold j hjlt hnj)
  · intro hi
    split at hi
    next hn =>
      obtain ⟨hen, rfl⟩ := (hnew n i).mpr ⟨hn, hi⟩
      have hcur := (h.named_iff hk).mpr (.inl ⟨rfl, hen⟩)
      exact ⟨k, hcur.1, hcur.2, by rw [h.self]⟩
    next hn =>
      obtain ⟨j, hjlt, hnj, rfl⟩ := hd.child_eq_some_iff.mp hi
      have hjk : j ≠ k := by
        rintro rfl
        exact hn (hgone hjlt n hnj)
      have hcur := (h.named_iff hk).mpr (.inr ⟨hjk, hjlt, hnj⟩)
      exact ⟨j, hcur.1, hcur.2, by rw [h.other j hjk]⟩

/-- An entry with a new name in a free slot, or past the end. -/
lemma binds_add (hmax : 32 * k + 32 ≤ maxFileSize)
    (hfree : k < c.entryCount d → (c.dirent d k).ino = 0) (hino : e.ino ≠ 0)
    (hnew : c.child d e.name = none) (hkept : ∀ p, c.slot d p ≠ 0 → c'.slot d p = c.slot d p) :
    Binds c c' d e.name (some e.ino) := by
  refine h.binds hd hk hmax hkept (fun n i => ?_) (fun j hj hnj => ?_) fun hlt n hnk => ?_
  · rw [isNamed_iff, some.injEq]
    exact and_congr_left' ⟨fun hn => hn.2.symm, fun hn => ⟨hino, hn.symm⟩⟩
  · rw [child_eq_none_iff.mp hnew j hj] at hnj
    cases hnj
  · exact absurd (hfree hlt) (isNamed_iff.mp hnk).1

/-- The entry with the name, erased. -/
lemma binds_remove (hlt : k < c.entryCount d) (hnamed : (c.dirent d k).isNamed name = true)
    (hino : e.ino = 0)
    (hkept : ∀ p, c.slot d p ≠ 0 → c'.slot d p = c.slot d p) : Binds c c' d name none := by
  have hsize : 32 * k + 32 ≤ maxFileSize := by
    have hle := hd.size_le
    rw [View.entryCount] at hlt
    omega
  refine h.binds hd hk hsize hkept (fun n i => ?_) (fun j hj hnj => ?_) fun _ n hnk => ?_
  · simp [Dirent.isNamed, hino]
  · exact hd.distinct j k name hj hlt hnj hnamed
  · exact (isNamed_iff.mp hnk).2.symm.trans (isNamed_iff.mp hnamed).2

end EntrySet

/-! ## The directory functions -/

section Functions

variable {v : Volume} (hv : Healthy v) (hc : v.view.Consistent) {d : ℕ} (hl : v.view.Live d)

include hv hc hl

omit hc in
/-- `dir_find` in something that is not a directory. -/
lemma dirFind_notDir (htype : (v.view.inodes d).type ≠ typeDir) (name : Name) :
    dirFind v d name = .error .ENOTDIR := by
  rw [dirFind, readInode_ok hv hl.1]
  exact if_pos htype

/-- `dir_add` writes to the directory only, whatever it is. -/
lemma dirAdd_touches (name : Name) (ino : ℕ) :
    ∃ r v', dirAdd v d name ino = (r, v') ∧ v'.frame = v.frame ∧ Touches d v.view v'.view := by
  rw [dirAdd]
  by_cases hlong : nameMax < name.length
  · rw [if_pos hlong]
    exact ⟨_, v, rfl, rfl, .refl hc⟩
  rw [if_neg hlong, readInode_ok hv hl.1]
  dsimp only
  obtain ⟨r, v', hwrite, hframe, htouch, -⟩ := writeFile_spec hv hc hl
    (freeSlot v d (v.view.inodes d).size) (Dirent.encode ⟨ino, name⟩) 32
  rw [hwrite]
  cases r <;> exact ⟨_, v', rfl, hframe, htouch⟩

variable (hd : v.view.DirOk d)

include hd

/-- `dir_find` in a well-formed directory. -/
theorem dirFind_spec (htype : (v.view.inodes d).type = typeDir) (name : Name) :
    dirFind v d name =
      match v.view.child d name with
      | none => .error .ENOENT
      | some i => .ok i := by
  rw [dirFind, readInode_ok hv hl.1]
  dsimp only
  rw [if_neg (by simp [htype]), dirSearch_spec hv hc hl hd.whole hd.size_le, View.child]
  cases v.view.findEntry d (·.isNamed name) <;> rfl

/-- The slot `dir_add` takes is a free entry, or the end of a directory that has none. -/
lemma freeSlot_spec :
    ∃ k ≤ v.view.entryCount d, freeSlot v d (v.view.inodes d).size = 32 * k ∧
      (k < v.view.entryCount d → (v.view.dirent d k).ino = 0) ∧
      (k = v.view.entryCount d → v.view.findEntry d (·.ino = 0) = none) := by
  rw [freeSlot, dirSearch_spec hv hc hl hd.whole hd.size_le]
  cases hfind : v.view.findEntry d (·.ino = 0) with
  | none => exact ⟨_, le_rfl, hd.size_eq, fun h => absurd h (lt_irrefl _), fun _ => rfl⟩
  | some k =>
    obtain ⟨hlt, hzero⟩ := findEntry_eq_some hfind
    exact ⟨k, hlt.le, rfl, fun _ => by simpa using hzero, fun h => absurd h hlt.ne⟩

/-- What is known when `dir_add` fails: the names are what they were, a directory without holes is
full to the end of its last block, and for an empty one there was no block to be had. -/
structure AddFailed (c c' : View) (d : ℕ) : Prop where
  /-- The directory is as it was. -/
  agree : Agree c c' d
  /-- Without holes it is full to the end of its last block. -/
  noRoom : c.Dense d → c.findEntry d (·.ino = 0) = none ∧ c.entryCount d % 32 = 0
  /-- For an empty one there was no block. -/
  bare : c.entryCount d = 0 → ¬ c.CanMap d 0 ∧ ∀ q, c'.slot d q = c.slot d q

/-- `dir_add` of a new name binds it, or fails and leaves the directory as it was. -/
theorem dirAdd_spec {ino : ℕ} (hfits : Dirent.Fits ⟨ino, name⟩) (hino : ino ≠ 0)
    (hnew : v.view.child d name = none) :
    ∃ r v', dirAdd v d name ino = (r, v') ∧ v'.frame = v.frame ∧ Touches d v.view v'.view ∧
      (v.view.entryCount d < 32 → ∀ q, q ≠ .direct 0 → v'.view.slot d q = v.view.slot d q) ∧
      ((r = .ok () ∧ Binds v.view v'.view d name (some ino) ∧
          (v.view.entryCount d = 0 → v'.view.entryCount d = 1)) ∨
        ((∃ e, r = .error e) ∧ AddFailed v.view v'.view d)) := by
  have hname := hfits.name_length
  have hmaxname : nameMax = 27 := rfl
  rw [dirAdd, if_neg (by dsimp only at hname; omega), readInode_ok hv hl.1]
  obtain ⟨k, hk, hslot, hfree, hfull⟩ := freeSlot_spec hv hc hl hd
  dsimp only
  rw [hslot]
  have hsize := hd.size_eq
  have hlarge := hd.size_le
  have hmaxsize := maxFileSize_eq
  have hblocks : maxFileBlocks = 65802 := rfl
  obtain ⟨r, v', hwrite, hframe, htouch, hconf,
    ⟨rfl, hmax, hset⟩ | ⟨⟨e, rfl⟩, hagree, hroom, hnone⟩⟩ :=
    writeEntry_spec hv hc hl hd hk (Dirent.encode ⟨ino, name⟩)
  -- the first block is named by the inode itself
  all_goals have hfirst : v.view.entryCount d < 32 → 32 * k / 1024 = 0 := fun hlt => by omega
  all_goals
    have hother : v.view.entryCount d < 32 → ∀ q, q ≠ .direct 0 →
        v'.view.slot d q = v.view.slot d q := fun hlt q hq => hconf q (by
      rw [hfirst hlt]
      exact fun hmem => hq (mem_singleton.mp hmem))
  · rw [decode_encode hfits] at hset
    rw [hwrite]
    refine ⟨_, v', rfl, hframe, htouch, hother,
      .inl ⟨rfl, hset.binds_add hd hk hmax hfree hino hnew htouch.slot_kept, fun hzero => ?_⟩⟩
    rw [hset.entryCount_eq]
    omega
  · rw [hwrite]
    refine ⟨_, v', rfl, hframe, htouch, hother,
      .inr ⟨⟨e, rfl⟩, hagree, fun hdense => ?_, fun hzero => ?_⟩⟩
    · -- no entry lies in the block that is missing
      have hout : ∀ j < v.view.entryCount d, ¬ (maxFileSize < 32 * k + 32) →
          32 * j / 1024 ≠ 32 * k / 1024 := by
        intro j hj hfits hsame
        obtain ⟨p, hp, hp0⟩ := slot_eq_zero_of_not_canMap
          (show 32 * k / 1024 < maxFileBlocks by omega) (hroom.resolve_left hfits)
        obtain ⟨q, hq, hq0⟩ := hdense (32 * j) (by omega)
        rw [hsame, hp] at hq
        obtain rfl := some.inj hq
        exact hq0 hp0
      have hend : k = v.view.entryCount d := by
        rcases Nat.lt_or_eq_of_le hk with hlt | heq
        · exact absurd rfl (hout k hlt (by omega))
        · exact heq
      refine ⟨hfull hend, Decidable.byContradiction fun hmod => ?_⟩
      exact hout (k - 1) (by omega) (by omega) (by omega)
    · have hlt : v.view.entryCount d < 32 := by omega
      rw [hfirst hlt] at hroom hnone
      refine ⟨hroom.resolve_left (by omega), fun q => ?_⟩
      by_cases hq : q = .direct 0
      · exact hnone q (hq ▸ rfl)
      · exact hother hlt q hq

/-- `dir_remove` of a name that is there removes it, and leaves a free slot. -/
theorem dirRemove_spec (h : v.view.child d name = some i) :
    ∃ v', dirRemove v d name = (.ok (), v') ∧ v'.frame = v.frame ∧ Touches d v.view v'.view ∧
      Binds v.view v'.view d name none ∧ v'.view.findEntry d (·.ino = 0) ≠ none := by
  rw [View.child, map_eq_some_iff] at h
  obtain ⟨k, hfind, -⟩ := h
  obtain ⟨hlt, hnamed⟩ := findEntry_eq_some hfind
  rw [dirRemove, readInode_ok hv hl.1]
  dsimp only
  rw [dirSearch_spec hv hc hl hd.whole hd.size_le, hfind]
  obtain ⟨r, v', hwrite, hframe, htouch, -, ⟨rfl, -, hset⟩ | ⟨-, -, hroom, -⟩⟩ :=
    writeEntry_spec hv hc hl hd hlt.le Buf.zero
  · have hzero : (Dirent.decode Buf.zero).ino = 0 := by rw [decode_zero]
    refine ⟨v', by simp [hwrite], hframe, htouch,
      hset.binds_remove hd hlt.le hlt hnamed hzero htouch.slot_kept, fun hnone => ?_⟩
    -- the erased entry is free
    have hfalse := findEntry_eq_none.mp hnone k (by rw [hset.entryCount_eq]; omega)
    rw [hset.self, decode_zero] at hfalse
    exact absurd hfalse (by decide)
  · have hsize := hd.size_eq
    have hlarge := hd.size_le
    have hmax : maxFileSize = maxFileBlocks * 1024 := rfl
    obtain ⟨p, hp, hp0⟩ := slot_eq_zero_of_not_canMap
      (show 32 * k / 1024 < maxFileBlocks by omega) (hroom.resolve_left (by omega))
    exact absurd hp0 (slot_ne_zero_of_dirent hp (isNamed_iff.mp hnamed).1)

/-- `dir_is_empty`: no name but the two dots. -/
theorem dirIsEmpty_spec :
    dirIsEmpty v d = true ↔ ∀ name, name ≠ dot → name ≠ dotDot → v.view.child d name = none := by
  rw [dirIsEmpty, readInode_ok hv hl.1]
  dsimp only
  rw [dirSearch_spec hv hc hl hd.whole hd.size_le, isNone_iff_eq_none,
    map_eq_none_iff, findEntry_eq_none]
  simp only [child_eq_none_iff, decide_eq_false_iff_not, Dirent.isNamed]
  constructor
  · rintro h name hdot hdotDot k hk ⟨hino, rfl⟩
    exact h k hk ⟨hino, hdot, hdotDot⟩
  · rintro h k hk ⟨hino, hdot, hdotDot⟩
    exact h _ hdot hdotDot k hk ⟨hino, rfl⟩

end Functions

end Wos.Wfs
