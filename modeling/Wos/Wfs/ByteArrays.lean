import Wos.Base.Machine
import Wos.Mkwfs.Intact

/-!
# Files as byte arrays

What a file is to its users: a size and the bytes below it. `ByteFile` is that, and `byteStep` says
what reading, writing and truncating such files means. The driver, with its three tiers of
pointers, its holes and its multi-block reads, refines it.

## Main definitions

* `ByteFile`, `FileCall`, `FileReply`, `byteStep`: the abstract files;
* `fileStep`: the same calls on a volume;
* `View.files`: the byte arrays a view stands for.

## Main results

* `fileStep_simulates`: one call on a volume is one call on byte arrays;
* `run_refines_byteFiles`: the same for sequences of calls.
-/

namespace Wos.Wfs

open Function

/-! ## The abstract files -/

/-- A file as its users see it. -/
@[ext]
structure ByteFile where
  size : ℕ
  bytes : Buf

namespace ByteFile

/-- The bytes of a range, as far as the file reaches. -/
def read (f : ByteFile) (off len : ℕ) : List UInt8 := f.bytes.slice off (min len (f.size - off))

/-- The first `n` bytes of a buffer stored at `off`. -/
def write (f : ByteFile) (off : ℕ) (buf : Buf) (n : ℕ) : ByteFile where
  size := max f.size (off + n)
  bytes := f.bytes.copy off buf n

/-- The empty file: nothing was written, every byte is zero. -/
def empty : ByteFile := ⟨0, Buf.zero⟩

/-- The file extended with zeroes, if need be. -/
def extend (f : ByteFile) (off : ℕ) : ByteFile := { f with size := max f.size off }

end ByteFile

/-- The calls on the contents of a file. -/
inductive FileCall
  | write (ino off : ℕ) (buf : Buf) (len : ℕ)
  | truncate (ino : ℕ)
  | read (ino off len : ℕ)

/-- What the calls return. -/
inductive FileReply
  | wrote (r : Except Errno ℕ)
  | truncated (r : Except Errno Unit)
  | bytes (r : Except Errno (List UInt8))

/-- A call, the surroundings it is made in, and what it returns. -/
structure FileEvent where
  env : Env
  call : FileCall
  reply : FileReply

/-- The meaning of a call on byte arrays. A write stores as many bytes as it reports; one that
fails stores none. -/
def byteStep (s : ℕ → ByteFile) (l : FileEvent) (s' : ℕ → ByteFile) : Prop :=
  match l.call with
  | .read ino off len => l.reply = .bytes (.ok ((s ino).read off len)) ∧ s' = s
  | .truncate ino =>
    l.reply = .truncated (.ok ()) ∧ s' = Function.update s ino ByteFile.empty
  | .write ino off buf len =>
    (∃ n ≤ len, l.reply = .wrote (.ok n) ∧
      s' = Function.update s ino ((s ino).write off buf n)) ∨
    (∃ e, l.reply = .wrote (.error e) ∧
      (s' = s ∨ s' = Function.update s ino ((s ino).extend off)))

/-! ## The calls on a volume -/

/-- The inode is a regular file. -/
def View.Regular (c : View) (i : ℕ) : Prop := c.Valid i ∧ (c.inodes i).type = typeFile

variable {c c' : View} {i ino j : ℕ} {v : Volume} {s : ℕ → ByteFile}

lemma View.Regular.live (h : c.Regular i) : c.Live i := by
  refine ⟨h.1, ?_⟩
  rw [h.2]
  decide

/-- What the callers of the three functions guarantee: a live regular file, and a range that does
not wrap around. -/
def FileCall.Allowed (c : View) : FileCall → Prop
  | .write ino off _ len => c.Regular ino ∧ off + len < 4294967296
  | .truncate ino => c.Regular ino
  | .read ino off len => c.Regular ino ∧ off + len < 4294967296

/-- One call on a volume, on a device that does not fail. -/
def fileStep (v : Volume) (l : FileEvent) (v' : Volume) : Prop :=
  (∀ n b, l.env.fails n b = false) ∧ l.call.Allowed v.view ∧
  match l.call with
  | .write ino off buf len =>
    l.reply = .wrote (writeFile { v with env := l.env } ino off buf len).1 ∧
      v' = (writeFile { v with env := l.env } ino off buf len).2
  | .truncate ino =>
    l.reply = .truncated (truncate { v with env := l.env } ino).1 ∧
      v' = (truncate { v with env := l.env } ino).2
  | .read ino off len =>
    l.reply = .bytes (readFile { v with env := l.env } ino off len) ∧ v' = { v with env := l.env }

/-- The byte array an inode stands for. -/
def View.file (c : View) (i : ℕ) : ByteFile := ⟨(c.inodes i).size, c.contents i⟩

/-- No live inode is larger than a file can be. -/
def View.SizesFit (c : View) : Prop := ∀ i, c.Live i → (c.inodes i).size ≤ maxFileSize

/-- The volume stands for the byte arrays. -/
structure Represents (v : Volume) (s : ℕ → ByteFile) : Prop where
  healthy : Healthy v
  consistent : v.view.Consistent
  /-- No file is longer than its block map reaches. -/
  sizes : v.view.SizesFit
  /-- Every inode in use has the bytes of its array. -/
  files : ∀ i, v.view.Live i → s i = v.view.file i

/-! ## The refinement -/

lemma Healthy.setEnv (hv : Healthy v) {e : Env} (he : ∀ n b, e.fails n b = false) :
    Healthy { v with env := e } := ⟨hv.geometry, he, hv.mounted⟩

/-- A change confined to one inode keeps the representation of every other. -/
lemma Represents.update {v' : Volume} (h : Represents v s) (hv' : Healthy v')
    (hc' : v'.view.Consistent) (hlive : ∀ j, v'.view.Live j ↔ v.view.Live j)
    (hother : ∀ j, j ≠ ino → v.view.Live j → v'.view.file j = v.view.file j) {f : ByteFile}
    (hsize : f.size ≤ maxFileSize) (hf : v'.view.file ino = f) :
    Represents v' (update s ino f) := by
  refine ⟨hv', hc', fun j hj => ?_, fun j hj => ?_⟩
  · by_cases hji : j = ino
    · subst hji
      rw [← hf] at hsize
      exact hsize
    · have hsame := congrArg ByteFile.size (hother j hji ((hlive j).mp hj))
      exact hsame.trans_le (h.sizes j ((hlive j).mp hj))
  · by_cases hji : j = ino
    · subst hji
      rw [update_self, hf]
    · rw [update_of_ne hji, h.files j ((hlive j).mp hj), hother j hji ((hlive j).mp hj)]

lemma Touches.file_other (h : Touches i c c') (hj : j ≠ i)
    (hl : c.Live j) : c'.file j = c.file j := by
  rw [View.file, View.file, h.inodes_eq j hj]
  congr 1
  funext k
  exact h.byteAt_other j k hj hl

lemma Emptied.file_other (h : Emptied i c c') (hj : j ≠ i) :
    c'.file j = c.file j := by
  rw [View.file, View.file, h.inodes_eq j hj]
  congr 1
  funext k
  exact View.byteAt_congr (h.inodes_eq j hj) h.data_eq k

lemma Emptied.file_self (h : Emptied i c c') :
    c'.file i = ByteFile.empty := by
  rw [View.file, h.size_eq]
  congr 1
  funext k
  exact View.byteAt_bare h.bare k

/-- A write on a volume is a write on byte arrays. -/
lemma write_simulates (h : Represents v s) {off : ℕ} {buf : Buf} {len : ℕ}
    (hreg : v.view.Regular ino) (hwrap : off + len < 4294967296) :
    ∃ s', byteStep s ⟨v.env, .write ino off buf len, .wrote (writeFile v ino off buf len).1⟩ s' ∧
      Represents (writeFile v ino off buf len).2 s' := by
  obtain ⟨r, v', hw, hframe, htouch, hres⟩ :=
    writeFile_spec h.healthy h.consistent hreg.live off buf len
  rw [hw]
  rcases hres with ⟨rfl, rfl, -⟩ | ⟨hfits, done, hwritten⟩
  · -- the range reaches past the largest file: nothing happens
    exact ⟨s, .inr ⟨_, rfl, .inl rfl⟩, h⟩
  have hle := hwritten.le
  rw [Nat.mod_eq_of_lt hwrap] at hfits
  have hsize := hwritten.size_eq
  rw [Nat.mod_eq_of_lt (by omega)] at hsize
  have hold := h.sizes ino hreg.live
  have hbytes : v'.view.contents ino = (v.view.contents ino).copy off buf done := by
    funext k
    exact (hwritten.stored (by omega)).bytes k
  have hfile : v'.view.file ino = (s ino).write off buf done := by
    rw [h.files ino hreg.live, View.file, hsize, hbytes]
    rfl
  have hrep : Represents v' (update s ino ((s ino).write off buf done)) := by
    refine h.update (h.healthy.of_frame hframe) htouch.consistent htouch.live_iff
      (fun j hj hl => htouch.file_other hj hl) ?_ hfile
    rw [h.files ino hreg.live]
    exact max_le hold (by omega)
  by_cases hnone : done = 0 ∧ 0 < len
  · -- no byte was stored, but the size may have grown to the offset
    obtain ⟨e, rfl⟩ := hwritten.error hnone.1 hnone.2
    refine ⟨_, .inr ⟨e, rfl, .inr rfl⟩, ?_⟩
    have hext : (s ino).write off buf done = (s ino).extend off := by
      rw [hnone.1]
      ext1
      · rfl
      · funext k
        exact Buf.copy_apply_of_not (by omega)
    rwa [hext] at hrep
  · exact ⟨_, Or.inl ⟨done, hle, by rw [hwritten.ok hnone], rfl⟩, hrep⟩

/-- One call on a volume is one call on the byte arrays it stands for. -/
theorem fileStep_simulates (v : Volume) (s : ℕ → ByteFile) (l : FileEvent) (v' : Volume)
    (h : Represents v s) (hstep : fileStep v l v') :
    ∃ s', byteStep s l s' ∧ Represents v' s' := by
  obtain ⟨env, call, reply⟩ := l
  obtain ⟨hcalm, hallowed, hcall⟩ := hstep
  have h1 : Represents { v with env := env } s :=
    ⟨h.healthy.setEnv hcalm, h.consistent, h.sizes, h.files⟩
  cases call with
  | write ino off buf len =>
    dsimp only at hcall
    obtain ⟨rfl, rfl⟩ := hcall
    exact write_simulates h1 hallowed.1 hallowed.2
  | truncate ino =>
    dsimp only at hcall
    obtain ⟨rfl, rfl⟩ := hcall
    obtain ⟨v', ht, hframe, hempty⟩ :=
      truncate_spec h1.healthy h1.consistent (View.Regular.live hallowed)
    refine ⟨_, ⟨by rw [ht], rfl⟩, ?_⟩
    rw [ht]
    exact h1.update (h1.healthy.of_frame hframe) hempty.consistent hempty.live_iff
      (fun j hj _ => hempty.file_other hj) (Nat.zero_le _) hempty.file_self
  | read ino off len =>
    dsimp only at hcall
    obtain ⟨rfl, rfl⟩ := hcall
    refine ⟨s, ⟨?_, rfl⟩, h1⟩
    have hlive := hallowed.1.live
    rw [readFile_spec h1.healthy h1.consistent hlive (h1.sizes ino hlive) hallowed.2,
      h1.files ino hlive]
    rfl

/-- For every sequence of writes, truncations and reads of live regular files, what the calls
return and what they leave behind is what the same calls do to byte arrays. -/
theorem run_refines_byteFiles {v v' : Volume} (hv : Healthy v) (hc : v.view.Consistent)
    (hs : v.view.SizesFit) {ls : List FileEvent} (hrun : Run fileStep v ls v') :
    ∃ s', Run byteStep v.view.file ls s' ∧ ∀ i, v'.view.Live i → s' i = v'.view.file i := by
  obtain ⟨s', hrun', hrep⟩ := hrun.simulates fileStep_simulates
    (⟨hv, hc, hs, fun _ _ => rfl⟩ : Represents v v.view.file)
  exact ⟨s', hrun', hrep.files⟩

lemma sample_sizesFit : Mkwfs.sample.view.SizesFit := by
  have hall : ∀ i < 64, (Mkwfs.sample.view.inodes i).size ≤ maxFileSize := by decide +kernel
  exact fun i hi => hall i (hi.1.2.trans_eq Mkwfs.sample_totalInodes)

open Mkwfs in
/-- Two bytes are written into a file of the small volume, and the file is read back. -/
theorem run_refines_byteFiles_sample :
    let write : FileEvent :=
      ⟨sampleEnv, .write 2 3 (Buf.ofList (ascii "XY")) 2, .wrote (.ok 2)⟩
    let read : FileEvent := ⟨sampleEnv, .read 2 0 100, .bytes (.ok (ascii "helXY"))⟩
    ∃ v' s', Run fileStep sample [write, read] v' ∧
      Run byteStep sample.view.file [write, read] s' ∧
      ∀ i, v'.view.Live i → s' i = v'.view.file i := by
  intro write read
  obtain ⟨hv, hc, -, -⟩ := sample_intact
  have hwrite : writeFile sample 2 3 (Buf.ofList (ascii "XY")) 2 =
      (.ok 2, (writeFile sample 2 3 (Buf.ofList (ascii "XY")) 2).2) :=
    Prod.ext (by decide +kernel) rfl
  generalize hv1 : (writeFile sample 2 3 (Buf.ofList (ascii "XY")) 2).2 = v1 at hwrite
  have hfirst : fileStep sample write v1 := by
    refine ⟨fun _ _ => rfl, ⟨⟨by decide +kernel, by decide +kernel⟩, by decide⟩, ?_, ?_⟩
    all_goals rw [sample_setEnv, hwrite]
  have hsecond : fileStep v1 read { v1 with env := sampleEnv } := by
    refine ⟨fun _ _ => rfl, ⟨⟨?_, ?_⟩, by decide⟩, ?_, rfl⟩
    all_goals subst hv1
    · decide +kernel
    · decide +kernel
    · exact congrArg FileReply.bytes (by decide +kernel)
  have hrun := Run.cons hfirst (.cons hsecond (.nil _))
  obtain ⟨s', hrun', hfiles⟩ := run_refines_byteFiles hv hc sample_sizesFit hrun
  exact ⟨_, s', hrun, hrun', hfiles⟩

end Wos.Wfs
