import Mathlib.Algebra.Group.Nat.Defs
import Mathlib.Logic.Function.Basic

/-!
# Where system calls look into the descriptor table

The system calls of `kernel/proc/syscall.c` that take a descriptor look into `fds[]` of the caller, an
array of `MAX_OPEN_FILES`. The argument comes with 64 bits. Most calls narrow it to an `int`, which
`fd_get` of `kernel/fs/vfs.c` then checks; `sys_shm_map` and `sys_shm_size` check all of it.
`sys_pollin` checks the narrowed number and looks at the other one.

A call is modelled by the indices it looks at, in order, as far as what it finds there decides that.
The checks of the other arguments come before any look, and the calls they refuse are left out.

## Main definitions

* `fdGet`, `fdInstall`: the lookups;
* `FdCall.looks`: the indices a call looks at.

## Main results

* `looks_lt_iff`: which calls stay within the array.
-/

namespace Wos.Proc

open List

/-- `MAX_OPEN_FILES`. -/
def maxOpenFiles : ℕ := 32

/-- What a descriptor is. -/
inductive FdKind
  | none
  | pipe (writeEnd : Bool)
  | socket
  | shm
  /-- The console, a file, a directory or the keyboard. -/
  | other
  deriving DecidableEq

/-- What is found at an index from the start of `fds[]` on, also past its end. -/
abbrev Fds := ℕ → FdKind

/-- The conversion of an argument to `int`. -/
def toInt (x : UInt64) : ℤ := (x.toBitVec.setWidth 32).toInt

/-- The check of `fd_get` and `pipe_from_fd`. -/
def InRange (fd : ℤ) : Prop := 0 ≤ fd ∧ fd < maxOpenFiles

instance (fd : ℤ) : Decidable (InRange fd) := inferInstanceAs (Decidable (_ ∧ _))

/-- The look of `fd_get` and of `pipe_from_fd`. -/
def fdGet (fd : ℤ) : List ℕ := if InRange fd then [fd.toNat] else []

/-- `fd_get` finds an open descriptor of a kind that `ok` accepts. -/
def fdFinds (fds : Fds) (fd : ℤ) (ok : FdKind → Bool) : Bool :=
  decide (InRange fd) && fds fd.toNat != .none && ok (fds fd.toNat)

/-- `vfs_fd_install`: `fd_alloc` looks for a free index from 3 on. It returns what it looked at and the
table with the new descriptor. -/
def fdInstall (fds : Fds) (new : FdKind) : List ℕ × Fds :=
  let taken := (List.range' 3 (maxOpenFiles - 3)).takeWhile (fds · ≠ .none)
  if taken.length = maxOpenFiles - 3 then (taken, fds)
  else (taken ++ [3 + taken.length], Function.update fds (3 + taken.length) new)

/-- The loop of `vfs_recv` over the descriptors that arrived. -/
def installAll (fds : Fds) : List FdKind → List ℕ
  | [] => []
  | f :: fs => (fdInstall fds f).1 ++ installAll (fdInstall fds f).2 fs

/-- The loop of `vfs_send` over the descriptors it passes: the first that is not open ends it. -/
def sendLooks (fds : Fds) : List ℤ → List ℕ
  | [] => []
  | fd :: rest => fdGet fd ++ if fdFinds fds fd fun _ => true then sendLooks fds rest else []

/-- The system calls that take a descriptor. What user memory holds was copied as numbers of 32 bits,
and what a socket gives is an argument. -/
inductive FdCall
  | close (fd : UInt64)
  | read (fd : UInt64)
  | write (fd : UInt64)
  | lseek (fd : UInt64)
  | readdir (fd : UInt64)
  | accept (fd : UInt64) (accepted : Bool)
  | send (fd : UInt64) (passed : List ℤ)
  | recv (fd : UInt64) (arrived : List FdKind)
  /-- One pass of the loop of `vfs_poll`. -/
  | poll (watched : List ℤ)
  | pollin (fd : UInt64)
  | spawnIo (inFd outFd : ℤ)
  | shmMap (fd : UInt64)
  | shmSize (fd : UInt64)

/-- The look of `sys_shm_map` and `sys_shm_size`. -/
def shmLooks (fd : UInt64) : List ℕ := if maxOpenFiles ≤ fd.toNat then [] else [fd.toNat]

/-- The indices of `fds[]` a call looks at. -/
def FdCall.looks (fds : Fds) : FdCall → List ℕ
  | .close fd | .read fd | .write fd | .lseek fd | .readdir fd => fdGet (toInt fd)
  | .accept fd accepted => fdGet (toInt fd) ++
    if fdFinds fds (toInt fd) (· = .socket) ∧ accepted then (fdInstall fds .socket).1 else []
  | .send fd passed => fdGet (toInt fd) ++
    if fdFinds fds (toInt fd) (· = .socket) then sendLooks fds passed else []
  | .recv fd arrived => fdGet (toInt fd) ++
    if fdFinds fds (toInt fd) (· = .socket) then installAll fds arrived else []
  | .poll watched => watched.flatMap fdGet
  | .pollin fd =>
    (if InRange (toInt fd) then [fd.toNat] else []) ++
      -- the second test is for the standard input
      if fd = 0 ∧ ¬ (InRange (toInt fd) ∧ fds fd.toNat = .pipe false) then [0] else []
  | .spawnIo inFd outFd => fdGet inFd ++
    if fdFinds fds inFd (· = .pipe false) then fdGet outFd else []
  | .shmMap fd | .shmSize fd => shmLooks fd

/-- The narrowed number passes the check that the argument would not. -/
def FdCall.Slips : FdCall → Prop
  | .pollin fd => InRange (toInt fd) ∧ maxOpenFiles ≤ fd.toNat
  | _ => False

variable {fds : Fds} {i : ℕ}

lemma lt_of_mem_fdGet {fd : ℤ} (h : i ∈ fdGet fd) : i < maxOpenFiles := by
  rw [fdGet] at h
  split at h
  next hrange =>
    rw [mem_singleton.mp h]
    exact (Int.toNat_lt hrange.1).mpr hrange.2
  next => cases h

/-- A descriptor that is given out is in range. -/
lemma lt_of_mem_fdInstall {new : FdKind} (h : i ∈ (fdInstall fds new).1) : i < maxOpenFiles := by
  have htaken : ∀ j ∈ (List.range' 3 (maxOpenFiles - 3)).takeWhile (fds · ≠ .none),
      j < maxOpenFiles := by
    intro j hj
    exact (mem_range'_1.mp ((takeWhile_sublist _).subset hj)).2
  have hlen := (takeWhile_sublist (fds · ≠ .none)
    (l := List.range' 3 (maxOpenFiles - 3))).length_le
  rw [length_range'] at hlen
  rw [fdInstall] at h
  split at h
  next => exact htaken i h
  next hfree =>
    rcases mem_append.mp h with h | h
    · exact htaken i h
    · -- there is a free index, so the scan stopped before the end
      rw [mem_singleton.mp h]
      omega

lemma lt_of_mem_installAll {arrived : List FdKind} (h : i ∈ installAll fds arrived) :
    i < maxOpenFiles := by
  induction arrived generalizing fds with
  | nil => cases h
  | cons f fs ih =>
    rcases mem_append.mp h with h | h
    · exact lt_of_mem_fdInstall h
    · exact ih h

lemma lt_of_mem_sendLooks {passed : List ℤ} (h : i ∈ sendLooks fds passed) :
    i < maxOpenFiles := by
  induction passed with
  | nil => cases h
  | cons fd rest ih =>
    rcases mem_append.mp h with h | h
    · exact lt_of_mem_fdGet h
    · split at h
      · exact ih h
      · cases h

/-- A look that some calls take after the first. -/
lemma lt_of_mem_append_ite {l l' : List ℕ} {p : Prop} [Decidable p]
    (hl : ∀ i ∈ l, i < maxOpenFiles) (hl' : ∀ i ∈ l', i < maxOpenFiles) :
    ∀ i ∈ l ++ (if p then l' else []), i < maxOpenFiles := by
  intro i hi
  rcases mem_append.mp hi with hi | hi
  · exact hl i hi
  · split at hi
    · exact hl' i hi
    · cases hi

/-- Every call stays within the array, except `sys_pollin` of an argument whose low 32 bits are a
descriptor and the rest of which is not zero. -/
theorem looks_lt_iff (fds : Fds) (call : FdCall) :
    (∀ i ∈ call.looks fds, i < maxOpenFiles) ↔ ¬ call.Slips := by
  have hget : ∀ fd : ℤ, ∀ i ∈ fdGet fd, i < maxOpenFiles := fun _ _ h => lt_of_mem_fdGet h
  cases call with
  | close fd | read fd | write fd | lseek fd | readdir fd => exact iff_of_true (hget _) not_false
  | accept fd accepted =>
    exact iff_of_true (lt_of_mem_append_ite (hget _) fun _ => lt_of_mem_fdInstall) not_false
  | send fd passed =>
    exact iff_of_true (lt_of_mem_append_ite (hget _) fun _ => lt_of_mem_sendLooks) not_false
  | recv fd arrived =>
    exact iff_of_true (lt_of_mem_append_ite (hget _) fun _ => lt_of_mem_installAll) not_false
  | poll watched =>
    refine iff_of_true (fun i hi => ?_) not_false
    obtain ⟨fd, -, hi⟩ := mem_flatMap.mp hi
    exact lt_of_mem_fdGet hi
  | spawnIo inFd outFd => exact iff_of_true (lt_of_mem_append_ite (hget _) (hget _)) not_false
  | shmMap fd | shmSize fd =>
    refine iff_of_true (fun i hi => ?_) not_false
    simp only [FdCall.looks, shmLooks] at hi
    split at hi
    next => cases hi
    next hlt =>
      rw [mem_singleton.mp hi]
      exact Nat.lt_of_not_le hlt
  | pollin fd =>
    constructor
    · rintro hall ⟨hrange, hbig⟩
      refine absurd (hall fd.toNat (mem_append_left _ ?_)) (Nat.not_lt.mpr hbig)
      rw [if_pos hrange]
      exact mem_singleton_self _
    · intro hnot
      refine lt_of_mem_append_ite (fun i hi => ?_) (by decide)
      split at hi
      next hrange =>
        rw [mem_singleton.mp hi]
        exact Nat.lt_of_not_le fun hbig => hnot ⟨hrange, hbig⟩
      next => cases hi

/-- `sys_pollin` of 2³² looks far past the end: the check sees descriptor 0. -/
theorem pollin_past_end : 4294967296 ∈ (FdCall.pollin 4294967296).looks fun _ => .none := by
  decide

end Wos.Proc
