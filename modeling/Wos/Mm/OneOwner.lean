import Wos.Mm.Objects
import Wos.Mm.Spaces

/-!
# Every frame has one owner

In every state that the machine of `Wos.Mm.Memory` reaches, a frame that is not the kernel's is free, or
is owned by exactly one address space as a table or as a page of its own, by exactly one shared object,
or by exactly one block of a file. So freeing never meets a frame that is free; the frames of a
shared object stay used as long as a process maps them; and when everything has been torn down, the
frames and their count are those of the start.

A process must not take a page of a mapping out with `paging_unmap`, which frees the frame, and a
reference to an object is given back once. Without either rule a frame of a shared object is freed while
it is mapped.

## Main results

* `run_owned`: the property of every run.
-/

namespace Wos.Mm

variable {ι : Type*} [Fintype ι] [DecidableEq ι] {m₀ : Pmm} {w : Memory ι} {p : ι} {q : ProcMem}
  {v : ℕ}

/-! ## Runs -/

/-- Every call that may be made keeps the invariant. -/
lemma Sound.exec (h : Sound m₀ w) {op : MemOp ι} (hallowed : op.Allowed w) :
    Good m₀ (op.exec w) := by
  cases op with
  | newSpace p heapOk => exact h.newSpace heapOk hallowed
  | mapAlloc p v flags => exact h.mapAlloc flags hallowed
  | unmap p v => exact h.unmap hallowed
  | shmCreate o bytes heapOk => exact h.shmCreate bytes heapOk hallowed
  | shmRef o => exact h.shmRef hallowed
  | shmUnref o => exact h.shmUnref hallowed
  | shmMap p o => exact h.shmMap o hallowed
  | shmUnmap p addr => exact h.shmUnmap addr hallowed
  | shmUnmapAll p => exact h.shmUnmapAll hallowed
  | freeSpace p => exact h.freeSpace hallowed
  | blockGet n index create heapOk => exact h.blockGet n index create heapOk
  | blocksRelease n start => exact h.blocksRelease n start

omit [DecidableEq ι] in
lemma sound_boot (hzero : m₀.used 0 = true) (hcounted : m₀.Counted) :
    Sound m₀ (Memory.boot ι m₀) := by
  have hholds : ∀ x, (Memory.boot ι m₀).holds x = none := by
    intro x
    cases x <;> simp [Memory.holds, slots, Memory.boot, Memory.priv, blockAt]
  refine ⟨⟨⟨fun r => ?_, fun x y r hx => ?_, fun x r hx => ?_⟩, fun x f hx => ?_, hcounted, hzero,
    rfl⟩, fun p q hq => ?_, fun o sh hsh => ?_, fun o _ => rfl⟩
  · have hpmm : (Memory.boot ι m₀).pmm = m₀ := rfl
    simp [hholds, hpmm]
  · simp [hholds] at hx
  · simp [hholds] at hx
  · simp [hholds] at hx
  · cases hq
  · cases hsh

lemma run_sound {w0 : Memory ι} {ops : List (MemOp ι)} (hrun : Run memStep w0 ops w)
    (h : Sound m₀ w0) : Sound m₀ w := by
  refine Run.invariant (P := Sound m₀) (fun w op w' hw hstep => ?_) hrun h
  have hgood := hw.exec hstep.1
  rwa [hstep.2] at hgood

omit [DecidableEq ι] in
/-- A page of a mapping is on a frame of its object. -/
lemma Sound.frame_of_mapping (h : Sound m₀ w) (hq : w.procs p = some q)
    {i : Fin shmMaxMappings} {x : Mapping} (hx : q.maps i = some x) (hv : x.Covers v) {e : Pte}
    (he : q.space.leaf v = some e) : w.holds (.shm x.shm (v - x.base)) = some e.frame := by
  obtain ⟨sh, hsh, -, hleaf⟩ := (h.procs p q hq).mapped i x hx
  rw [hleaf v hv] at he
  obtain ⟨f, hf, rfl⟩ := Option.map_eq_some_iff.mp he
  simp [Memory.holds, slots, hsh, hf]

omit [DecidableEq ι] in
/-- When everything is torn down, the frames are as they were. -/
lemma Sound.restored (h : Sound m₀ w) (hcounted : m₀.Counted) (hprocs : ∀ p, w.procs p = none)
    (hshms : ∀ o, w.shms o = none) (hfiles : ∀ n i, blockAt (w.files n) i = none) :
    w.pmm.used = m₀.used ∧ w.pmm.usedFrames = m₀.usedFrames := by
  have hholds : ∀ x, w.holds x = none := by
    intro x
    cases x with
    | space p σ => simp [Memory.holds, slots, Memory.priv, hprocs]
    | shm o k => simp [Memory.holds, slots, hshms]
    | file n i => exact hfiles n i
  have hused : w.pmm.used = m₀.used := by
    funext f
    have hiff := h.books.owned.used_iff f
    rw [Bool.eq_iff_iff, hiff]
    simp [hholds]
  refine ⟨hused, ?_⟩
  rw [h.books.counted, hcounted, hused, h.books.total_eq]

/-- Any number of processes, on a machine whose frame 0 is used and whose count is right, whatever they
do: every frame has one owner; nothing is freed twice; a page of a mapping is on a frame of its object,
which is used; a process that has called `shm_unmap_all` can be freed; and with everything torn down the
frames are as they were. -/
theorem run_owned (hzero : m₀.used 0 = true) (hcounted : m₀.Counted) {ops : List (MemOp ι)}
    (hrun : Run memStep (Memory.boot ι m₀) ops w) :
    Owned w.pmm.used {f | m₀.used f = true} w.holds ∧
      (∀ op : MemOp ι, op.Allowed w → ∀ f, op.exec w ≠ .error (.doubleFree f)) ∧
      (∀ p q i x v e, w.procs p = some q → q.maps i = some x → x.Covers v →
        q.space.leaf v = some e →
          w.holds (.shm x.shm (v - x.base)) = some e.frame ∧ w.pmm.used e.frame = true) ∧
      (∀ p w', memStep w (.shmUnmapAll p) w' → (MemOp.freeSpace p).Allowed w') ∧
      ((∀ p, w.procs p = none) → (∀ o, w.shms o = none) →
        (∀ n i, blockAt (w.files n) i = none) →
          w.pmm.used = m₀.used ∧ w.pmm.usedFrames = m₀.usedFrames) := by
  have h := run_sound hrun (sound_boot hzero hcounted)
  refine ⟨h.books.owned, fun op hallowed f herror => ?_, fun p q i x v e hq hx hv he => ?_,
    fun p w' hstep => ?_, h.restored hcounted⟩
  · have hgood := h.exec hallowed
    rw [herror] at hgood
    obtain ⟨v, hv⟩ := hgood
    cases hv
  · have hheld := h.frame_of_mapping hq hx hv he
    exact ⟨hheld, h.books.owned.used_of_holds hheld⟩
  obtain ⟨hallowed, hexec⟩ := hstep
  obtain ⟨q, hq⟩ := Option.ne_none_iff_exists'.mp (show w.procs p ≠ none from hallowed)
  simp only [MemOp.exec, hq] at hexec
  split at hexec
  · cases hexec
  · rename_i m shms q' hunmap
    cases hexec
    exact ⟨q', Function.update_self .., shmUnmapAll_maps hunmap⟩

/-! ## Two processes -/

/-- Two processes share an object; the first has a page of its own as well, and goes away. -/
def sharing : List (MemOp Bool) :=
  [.newSpace false true, .mapAlloc false 0x40000 userWrite, .shmCreate 0 4096 true,
    .shmMap false 0, .newSpace true true, .shmMap true 0, .shmUnref 0, .shmUnmapAll false,
    .freeSpace false]

/-- The object is then still mapped by the second process, and its frame is used. -/
theorem run_owned_sharing : ∃ w, Run memStep (Memory.boot Bool smallMachine) sharing w ∧
    w.mapping true 0 = some ⟨0, 0x80000, 1⟩ ∧ w.pmm.usedFrames = 9 ∧
      Owned w.pmm.used {f | smallMachine.used f = true} w.holds := by
  have hplay : (attempt MemOp.Allowed MemOp.exec (Memory.boot Bool smallMachine) sharing).map
      (fun w => (w.mapping true 0, w.pmm.usedFrames)) = some (some ⟨0, 0x80000, 1⟩, 9) := by
    decide +kernel
  obtain ⟨w, hw, hend⟩ := Option.map_eq_some_iff.mp hplay
  have hrun := attempt_run hw
  exact ⟨w, hrun, congrArg Prod.fst hend, congrArg Prod.snd hend,
    (run_owned (by decide) (by decide) hrun).1⟩

/-- A process that has mapped an object, to which there is no handle any more. -/
def mappedOnce : List (MemOp Bool) :=
  [.newSpace false true, .shmCreate 0 4096 true, .shmMap false 0, .shmUnref 0]

/-- The panic of a call after another. -/
def panicAfter (w : Memory Bool) (op op' : MemOp Bool) : Option Panic :=
  match op.exec w with
  | .error _ => none
  | .ok w =>
    match op'.exec w with
    | .error e => some e
    | .ok _ => none

/-- Whether a call leaves a page of a process on a frame that is free. -/
def looseAfter (w : Memory Bool) (op : MemOp Bool) (p : Bool) (v : ℕ) : Bool :=
  match op.exec w with
  | .error _ => false
  | .ok w =>
    match (w.procs p).bind fun q => q.space.leaf v with
    | none => false
    | some e => !w.pmm.used e.frame

/-- When a page of a mapping is taken out with `paging_unmap`, unmapping the object frees its frame a
second time. When a reference is given back twice, the frame is free while it is still mapped. -/
theorem not_owned_of_unmap : ∃ w, Run memStep (Memory.boot Bool smallMachine) mappedOnce w ∧
    panicAfter w (.unmap false 0x80000) (.shmUnmap false userMmapBase) = some (.doubleFree 6) ∧
    looseAfter w (.shmUnref 0) false 0x80000 = true := by
  have hplay : (attempt MemOp.Allowed MemOp.exec (Memory.boot Bool smallMachine) mappedOnce).map
      (fun w => (panicAfter w (.unmap false 0x80000) (.shmUnmap false userMmapBase),
        looseAfter w (.shmUnref 0) false 0x80000)) = some (some (.doubleFree 6), true) := by
    decide
  obtain ⟨w, hw, hend⟩ := Option.map_eq_some_iff.mp hplay
  exact ⟨w, attempt_run hw, congrArg Prod.fst hend, congrArg Prod.snd hend⟩

end Wos.Mm
