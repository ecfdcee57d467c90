import Wos.Proc.Sched

/-!
# When timed waits end

`vfs_poll` of `kernel/fs/vfs.c` and `sys_sleep` of `kernel/proc/syscall.c` turn milliseconds into timer
ticks of 10 ms, add them to the tick counter, and wait until the signed difference to this deadline is
not negative. `vfs_poll` computes with 32 bits throughout. `sys_sleep` rounds with 64 bits, of which the
low 32 are kept.

Time is the number of ticks that have elapsed since the call. When the loop of `vfs_poll` makes a pass,
and when the timer of some processor calls `wake_expired`, is left open: both may be at any times.

## Main definitions

* `vfsPoll`, `sysSleep`: when the calls return.

## Main results

* `timed_waits_iff`: which waits never end early.
-/

namespace Wos.Proc

/-- The signed difference of two tick counts is not negative. -/
def Due (now deadline : UInt32) : Prop := (now - deadline).toNat < 2 ^ 31

instance (now deadline : UInt32) : Decidable (Due now deadline) := inferInstanceAs (Decidable (_ < _))

/-- The tick counter some ticks after `start`. -/
def ticksAt (start : UInt32) (elapsed : ℕ) : UInt32 := start + UInt32.ofNat elapsed

/-- The deadline of `vfs_poll`. -/
def pollDeadline (start : UInt32) (timeout : Int32) : UInt32 :=
  start + if 0 < timeout then (timeout.toUInt32 * 100 + 999) / 1000 else 0

/-- `vfs_poll` with nothing ready: of the times at which its loop makes a pass, the one at which it
returns. -/
def vfsPoll (start : UInt32) (timeout : Int32) (passes : List ℕ) : Option ℕ :=
  passes.find? fun e =>
    timeout = 0 ∨ 0 < timeout ∧ Due (ticksAt start e) (pollDeadline start timeout)

/-- The ticks `sys_sleep` asks for. -/
def sleepTicks (ms : UInt64) : UInt32 :=
  let ticks := ((ms * 100 + 999) / 1000).toUInt32
  if ticks = 0 then 1 else ticks

/-- What `sched_block_until` keeps of a deadline: zero would be none. -/
def wakeAtOf (until_tick : UInt32) : UInt32 := if until_tick = 0 then 1 else until_tick

/-- `sys_sleep`: of the times at which `wake_expired` is called, the one at which it wakes the thread.
A number that is not positive as a signed one only yields. -/
def sysSleep (start : UInt32) (ms : UInt64) (calls : List ℕ) : Option ℕ :=
  if ms = 0 ∨ 2 ^ 63 ≤ ms.toNat then some 0
  else calls.find? fun e => Due (ticksAt start e) (wakeAtOf (start + sleepTicks ms))

/-- This is when the `wake_expired` of the scheduler wakes a thread. -/
lemma Machine.wakeExpired_ready_iff {P T : Type} [DecidableEq T] {m : Machine P T} {t : T}
    {now : UInt32} (hblocked : (m.threads t).state = some .blocked) (hqueued : t ∈ m.runQueue)
    (hdeadline : (m.threads t).wakeAt ≠ 0) :
    ((m.wakeExpired now).threads t).state = some .ready ↔ Due now (m.threads t).wakeAt := by
  dsimp only [Machine.wakeExpired, Machine.wakeIf]
  split_ifs with h
  · exact iff_of_true rfl h.2.2.2
  rw [hblocked]
  exact iff_of_false (by decide) fun hdue => h ⟨hblocked, hqueued, hdeadline, hdue⟩

variable {start : UInt32} {e : ℕ}

variable {ticks : UInt32}

/-- What is compared is the time and the ticks asked for, wherever the counter stands. -/
lemma due_iff : Due (ticksAt start e) (start + ticks) ↔
    (4294967296 - ticks.toNat + e) % 4294967296 < 2147483648 := by
  have hticks := ticks.toNat_lt
  rw [Due, ticksAt, UInt32.toNat_sub, UInt32.toNat_add, UInt32.toNat_add, UInt32.toNat_ofNat']
  omega

lemma le_of_due (hle : ticks.toNat ≤ 2147483648)
    (h : Due (ticksAt start e) (start + ticks)) : ticks.toNat ≤ e := by
  rw [due_iff] at h
  omega

lemma due_self (ticks : UInt32) : Due (ticksAt start ticks.toNat) (start + ticks) := by
  have := ticks.toNat_lt
  rw [due_iff]
  omega

/-! ## Polling -/

/-- `poll` waits long enough exactly below the overflow of its ticks. -/
lemma vfsPoll_iff (timeout : Int32) :
    (∀ start passes e, vfsPoll start timeout passes = some e → timeout.toInt ≤ 10 * e) ↔
      timeout.toInt ≤ 42949662 := by
  by_cases hpos : 0 < timeout
  · have hint : (timeout.toUInt32.toNat : ℤ) = timeout.toInt := by
      have hzero : (0 : ℤ) < timeout.toInt := Int32.lt_iff_toInt_lt.mp hpos
      have hcond : timeout.toInt = _ := BitVec.toInt_eq_toNat_cond timeout.toBitVec
      change (timeout.toBitVec.toNat : ℤ) = _
      omega
    have hticks : ((timeout.toUInt32 * 100 + 999) / 1000).toNat =
        (timeout.toUInt32.toNat * 100 + 999) % 4294967296 / 1000 := by
      simp
    constructor
    · intro hall
      -- a pass is made right at the deadline
      have hle := hall 0 [_] _ (List.find?_cons_of_pos (decide_eq_true (.inr ⟨hpos, by
        rw [pollDeadline, if_pos hpos]
        exact due_self _⟩)))
      omega
    · intro hsmall start passes e hfind
      have hdue := List.find?_some hfind
      rcases of_decide_eq_true hdue with rfl | ⟨-, hdue⟩
      · cases hpos
      rw [pollDeadline, if_pos hpos] at hdue
      have hle := le_of_due (by omega) hdue
      rw [hticks, Nat.mod_eq_of_lt (by omega)] at hle
      omega
  · have hneg : timeout.toInt ≤ 0 := Int.not_lt.mp fun h => hpos (Int32.lt_iff_toInt_lt.mpr h)
    exact iff_of_true (fun _ _ e _ => by omega) (by omega)

/-! ## Sleeping -/

lemma sleepTicks_ne_zero (ms : UInt64) : sleepTicks ms ≠ 0 := by
  rw [sleepTicks]
  split
  next => decide
  next hne => exact hne

lemma sleepTicks_toNat {ms : UInt64} (hne : ms ≠ 0) (hle : ms.toNat ≤ 21474836470) :
    (sleepTicks ms).toNat = (ms.toNat * 100 + 999) / 1000 := by
  have hpos : ms.toNat ≠ 0 := fun h => hne (UInt64.toNat_inj.mp h)
  have hsum : (ms * 100 + 999).toNat = ms.toNat * 100 + 999 := by
    simp
    omega
  have hticks : ((ms * 100 + 999) / 1000).toUInt32.toNat = (ms.toNat * 100 + 999) / 1000 := by
    rw [UInt64.toNat_toUInt32, UInt64.toNat_div, hsum]
    exact Nat.mod_eq_of_lt (by simp; omega)
  rw [sleepTicks, if_neg fun h => ?_, hticks]
  rw [h] at hticks
  simp at hticks
  omega

/-- Whatever the number of ticks asked for, some wait is over before 2³¹ of them have passed. -/
lemma exists_due (hne : ticks ≠ 0) : ∃ start e, e < 2147483648 ∧
    Due (ticksAt start e) (wakeAtOf (start + ticks)) := by
  rcases Nat.lt_trichotomy ticks.toNat 2147483648 with h | h | h
  · refine ⟨0, ticks.toNat, h, ?_⟩
    rw [wakeAtOf, if_neg (by rwa [UInt32.zero_add])]
    exact due_self ticks
  · -- the deadline may be tick 0, for which tick 1 is taken
    obtain rfl : ticks = 2147483648 := UInt32.toNat_inj.mp h
    exact ⟨2147483648, 0, by decide, by decide⟩
  · refine ⟨0, 0, by decide, ?_⟩
    rw [wakeAtOf, if_neg (by rwa [UInt32.zero_add]), due_iff]
    omega

lemma le_of_due_wakeAtOf (hlt : ticks.toNat < 2147483648)
    (h : Due (ticksAt start e) (wakeAtOf (start + ticks))) : ticks.toNat ≤ e := by
  rw [wakeAtOf] at h
  split at h
  next hzero =>
    have hnext : (ticks + 1).toNat = ticks.toNat + 1 := by
      rw [UInt32.toNat_add]
      exact Nat.mod_eq_of_lt (by simp; omega)
    have hdue : Due (ticksAt start e) (start + (ticks + 1)) := by
      rwa [← UInt32.add_assoc, hzero, UInt32.zero_add]
    have hle := le_of_due (by omega) hdue
    omega
  next => exact le_of_due hlt.le h

/-- So does `sleep`. -/
lemma sysSleep_iff (ms : UInt64) :
    (∀ start calls e, sysSleep start ms calls = some e → ms.toNat ≤ 10 * e) ↔
      ms.toNat ≤ 21474836470 := by
  by_cases hyield : ms = 0 ∨ 2 ^ 63 ≤ ms.toNat
  · constructor
    · intro hall
      have hle := hall 0 [] 0 (if_pos hyield)
      omega
    · intro hsmall start calls e _
      rcases hyield with rfl | hbig
      · exact Nat.zero_le _
      · omega
  · simp only [sysSleep, if_neg hyield]
    constructor
    · intro hall
      obtain ⟨start, e, he, hdue⟩ := exists_due (sleepTicks_ne_zero ms)
      have hle := hall start [e] e (List.find?_cons_of_pos (decide_eq_true hdue))
      omega
    · intro hsmall start calls e hfind
      have hticks := sleepTicks_toNat (fun h => hyield (.inl h)) hsmall
      have hdue := List.find?_some hfind
      have hle := le_of_due_wakeAtOf (by omega) (of_decide_eq_true hdue)
      omega

/-- A poll never ends early if and only if the timeout in ticks is computed without overflow, and a
sleep if and only if it is for less than 2³¹ ticks. -/
theorem timed_waits_iff (timeout : Int32) (ms : UInt64) :
    ((∀ start passes e, vfsPoll start timeout passes = some e → timeout.toInt ≤ 10 * e) ↔
        timeout.toInt ≤ 42949662) ∧
      ((∀ start calls e, sysSleep start ms calls = some e → ms.toNat ≤ 10 * e) ↔
        ms.toNat ≤ 21474836470) :=
  ⟨vfsPoll_iff timeout, sysSleep_iff ms⟩

/-- A poll of about twelve hours returns at once, and a sleep of 497 days after one tick. -/
theorem timed_waits_early : vfsPoll 0 42949663 [0] = some 0 ∧ sysSleep 0 42949672960 [1] = some 1 := by
  decide

end Wos.Proc
