import Mathlib.Data.Set.Card
import Wos.Proc.Parents

/-!
# The seat

Who may take the screen and the keyboard. `sys_seat_grant` of `kernel/proc/syscall.c` arms a grant
that the next child collects in `proc_spawn_io`; `sys_dispgrab` and `sys_input_open` ask for root or
for the seat. The flags lie in the slots of the process table, which are used again. The process
that has the screen draws on it with `sys_dispblit`. Processes are told apart by the serial number
of their spawn, which the source calls the pid and keeps in 32 bits.

What the account database answers to a login is an argument of the step, and so are the state of the
devices and the descriptor that a process gets.

## Main definitions

* `Cred`, `Seats`: the identity and the flags of each process, beside the table;
* `Seats.exec`, `Seats.Allows`: the machine;
* `granters`: the callers of the grants that succeed;
* `SeatHolder`: the processes that ever hold the seat;
* `fbconBlit`, `Seats.sysDispblit`: drawing, with the clipping of `fbcon_blit`.

## Main results

* `seat_through_root`: seats are traced to grants by root, and only they open the devices;
* `dispblit_exact_iff`: what is drawn is what lies on the screen, unless a sum overflows and the
  other direction does not keep everything off the screen.
-/

namespace Wos.Proc

open Table Function List Bool
open Finset hiding mem_map mem_range

/-- `W_ROOT_UID`. -/
def rootUid : UInt32 := 0

/-- What `process_t` says about privileges. -/
structure Cred where
  uid : UInt32
  seat : Bool
  /-- `seat_pending`. -/
  pending : Bool

/-- The processes, their privileges, and the pid of the process that has the screen, or zero. -/
structure Seats where
  table : Table
  cred : Ref → Cred
  owner : ℕ

/-- What can happen next. -/
inductive SeatOp
  | proc (op : Op)
  | login (i : Fin maxProcesses) (who : Except Errno UInt32)
  | seatGrant (i : Fin maxProcesses)
  | dispGrab (i : Fin maxProcesses) (geometry : Bool)
  | dispDrop (i : Fin maxProcesses)
  | inputOpen (i : Fin maxProcesses) (active : Bool) (fd : Except Errno ℕ)

namespace Seats

variable (s : Seats)

/-- The privileges after `proc_spawn_io`. The slot is cleared when it is found, and a spawn that
fails after the child has collected the grant does not give it back. -/
def spawnCred (parent : Ref) (e : SpawnEnd) : Ref → Cred :=
  match s.table.freeSlot with
  | none => s.cred
  | some i =>
    match e with
    | .failsEarly => Function.update s.cred (.slot i) ⟨0, false, false⟩
    | _ =>
      Function.update (Function.update s.cred parent { s.cred parent with pending := false })
        (.slot i) ⟨(s.cred parent).uid, (s.cred parent).pending, false⟩

/-- The privileges after a step of the table. -/
def procCred : Op → Ref → Cred
  | .spawn parent _ _ e => s.spawnCred parent e
  | _ => s.cred

/-- `display_release`. -/
def displayRelease (pid : ℕ) : Seats := if s.owner = pid then { s with owner := 0 } else s

/-- `display_acquire`; whether there is a screen is an argument. -/
def displayAcquire (geometry : Bool) (pid : ℕ) : Seats × Except Errno ℕ :=
  if geometry = false then (s, .error .ENODEV)
  else if s.owner ≠ 0 ∧ s.owner ≠ pid then (s, .error .EBUSY)
  else ({ s with owner := pid }, .ok 0)

/-- The caller is neither root nor has the seat. -/
def Barred (i : Fin maxProcesses) : Prop :=
  (s.cred (.slot i)).uid ≠ rootUid ∧ (s.cred (.slot i)).seat = false

instance (i : Fin maxProcesses) : Decidable (s.Barred i) := inferInstanceAs (Decidable (_ ∧ _))

/-- The table after a step; `proc_exit` gives the screen back. -/
def procExec (op : Op) : Seats :=
  let s' : Seats := { s with table := (s.table.exec op).1, cred := s.procCred op }
  match op with
  | .exit i _ => s'.displayRelease (s.table.procs i).pid
  | _ => s'

/-- One step and what it returns. -/
def exec : SeatOp → Seats × Except Errno ℕ
  | .proc op => (s.procExec op, .ok 0)
  | .login _ (.error e) => (s, .error e)
  | .login i (.ok uid) =>
    ({ s with cred := Function.update s.cred (.slot i) { s.cred (.slot i) with uid } },
      .ok uid.toNat)
  | .seatGrant i =>
    if (s.cred (.slot i)).uid ≠ rootUid then (s, .error .EPERM)
    else
      ({ s with
        cred := Function.update s.cred (.slot i) { s.cred (.slot i) with pending := true } }, .ok 0)
  | .dispGrab i geometry =>
    if s.Barred i then (s, .error .EPERM) else s.displayAcquire geometry (s.table.procs i).pid
  | .dispDrop i => (s.displayRelease (s.table.procs i).pid, .ok 0)
  -- `vfs_input_open`
  | .inputOpen i active fd =>
    if s.Barred i then (s, .error .EPERM) else if active then (s, .error .EBUSY) else (s, fd)

/-- Calls are made by processes that run. -/
def Allows : SeatOp → Prop
  | .proc op => s.table.Allows op
  | .login i _ | .seatGrant i | .dispGrab i _ | .dispDrop i | .inputOpen i _ _ =>
    s.table.Live (.slot i)

/-- After boot the kernel's own process runs as root. -/
def boot : Seats := ⟨Table.boot, fun _ => ⟨rootUid, false, false⟩, 0⟩

/-- The process that makes a grant in this step, with its uid. -/
def granted : SeatOp → List (ℕ × UInt32)
  | .seatGrant i =>
    if (s.exec (.seatGrant i)).2 = .ok 0 then
      [((s.table.procs i).pid, (s.cred (.slot i)).uid)]
    else []
  | _ => []

/-- The process in slot `i` holds the seat. -/
def Holds (i : Fin maxProcesses) : Prop :=
  (s.table.procs i).used = true ∧ (s.cred (.slot i)).seat = true

end Seats

open Seats

/-- The processes that made the grants of a run, one for each that succeeded, with their uids then.
-/
def granters (s : Seats) : List SeatOp → List (ℕ × UInt32)
  | [] => []
  | op :: ops => s.granted op ++ granters (s.exec op).1 ops

/-- A process holds the seat at some time of a run. -/
def SeatHolder (s : Seats) (ops : List SeatOp) (pid : ℕ) : Prop :=
  ∃ k i, let s' := play Seats.exec s (ops.take k)
    s'.Holds i ∧ (s'.table.procs i).pid = pid

/-! ## Where seats come from -/

/-- Every seat and every armed grant is traced to a grant by root. `H` has the holders so far and
`A` the processes whose grant is armed; together they are no more than the grants. -/
structure Traced (s : Seats) (g : List (ℕ × UInt32)) (H : Finset ℕ) (A : Finset Ref) : Prop where
  /-- A process with the seat is a holder, and its spawner was granted it by root. -/
  seated : ∀ i, s.Holds i → (s.table.procs i).pid ∈ H ∧ ((s.table.procs i).spawner, rootUid) ∈ g
  /-- A process whose grant is armed made it as root. -/
  armed : ∀ r, s.table.Present r → (s.cred r).pending = true →
    r ∈ A ∧ (s.table.pidOf r, rootUid) ∈ g
  /-- There are no more of both than grants. -/
  card_le : H.card + A.card ≤ g.length

@[simp]
lemma Seats.displayRelease_table (s : Seats) (pid : ℕ) :
    (s.displayRelease pid).table = s.table := by
  rw [displayRelease]
  split <;> rfl

@[simp]
lemma Seats.displayRelease_cred (s : Seats) (pid : ℕ) : (s.displayRelease pid).cred = s.cred := by
  rw [displayRelease]
  split <;> rfl

lemma Seats.displayAcquire_kept (s : Seats) (geometry : Bool) (pid : ℕ) :
    (s.displayAcquire geometry pid).1.table = s.table ∧
      (s.displayAcquire geometry pid).1.cred = s.cred := by
  rw [displayAcquire]
  split_ifs <;> exact ⟨rfl, rfl⟩

lemma Seats.procExec_kept (s : Seats) (op : Op) :
    (s.procExec op).table = (s.table.exec op).1 ∧ (s.procExec op).cred = s.procCred op := by
  cases op <;> simp [procExec]

namespace Traced

variable {s s' : Seats} {g : List (ℕ × UInt32)} {H : Finset ℕ} {A : Finset Ref}

section Steps

variable (h : Traced s g H A)

include h

/-- Whoever is still there is who they were, and has no more than before. -/
lemma mono
    (hkin : ∀ i, (s'.table.procs i).used = true → (s'.table.procs i).kin = (s.table.procs i).kin)
    (hcred : ∀ r, s'.table.Present r → ((s'.cred r).seat = true → (s.cred r).seat = true) ∧
      ((s'.cred r).pending = true → (s.cred r).pending = true)) : Traced s' g H A := by
  refine ⟨fun i hi => ?_, fun r hr hp => ?_, h.card_le⟩
  · obtain ⟨hused, hpid, -, hspawner⟩ := Kin.mk.inj (hkin i hi.1)
    rw [hpid, hspawner]
    exact h.seated i ⟨hused.symm.trans hi.1, (hcred (.slot i) hi.1).1 hi.2⟩
  cases r with
  | kernel => exact h.armed .kernel trivial ((hcred _ hr).2 hp)
  | slot i =>
    obtain ⟨hused, hpid, -, -⟩ := Kin.mk.inj (hkin i hr)
    have := h.armed (.slot i) (hused.symm.trans hr) ((hcred _ hr).2 hp)
    rwa [show s'.table.pidOf (.slot i) = s.table.pidOf (.slot i) from hpid]

/-- A step that leaves the table and the privileges alone. -/
lemma same (htable : s'.table = s.table) (hcred : s'.cred = s.cred) : Traced s' g H A :=
  h.mono (fun i _ => by rw [htable]) (fun r _ => by rw [hcred]; exact ⟨id, id⟩)

/-- A child collects the armed grant of its parent, if there is one. -/
lemma spawned {parent : Ref} {i : Fin maxProcesses} {c : Process}
    (hlive : s.table.Live parent) (hfree : (s.table.procs i).used = false)
    (htable : ∀ j, s'.table.procs j = if j = i then c else s.table.procs j)
    (hc : c.spawner = s.table.pidOf parent) (hcred : s'.cred = update
      (update s.cred parent { s.cred parent with pending := false })
      (.slot i) ⟨(s.cred parent).uid, (s.cred parent).pending, false⟩) :
    ∃ H' A', H ⊆ H' ∧ Traced s' g H' A' := by
  have hpresent := Present.of_live hlive
  have hslot : s'.table.procs i = c := by rw [htable, if_pos rfl]
  have hother : ∀ j ≠ i, s'.table.procs j = s.table.procs j := fun j hj => by rw [htable, if_neg hj]
  have hne : ∀ r, s.table.Present r → r ≠ .slot i := by
    rintro r hr rfl
    exact false_ne_true (hfree.symm.trans hr)
  -- what has to be counted, whether there was a grant or not
  have key : ∀ H' A', H ⊆ H' → ((s.cred parent).pending = true → c.pid ∈ H') →
      (∀ r ∈ A, r ≠ parent → r ∈ A') → H'.card + A'.card ≤ g.length → Traced s' g H' A' := by
    intro H' A' hsub hpid hA hcard
    refine ⟨fun j hj => ?_, fun r hr hp => ?_, hcard⟩
    · by_cases hji : j = i
      · subst hji
        have hp : (s.cred parent).pending = true := by
          have := hj.2
          rwa [hcred, update_self] at this
        rw [hslot, hc]
        exact ⟨hpid hp, (h.armed parent hpresent hp).2⟩
      · obtain ⟨hused, hseat⟩ := hj
        rw [hother j hji] at hused ⊢
        rw [hcred, update_of_ne (fun heq => hji (Ref.slot.inj heq))] at hseat
        have hseat' : (s.cred (.slot j)).seat = true := by
          by_cases hjp : Ref.slot j = parent
          · subst hjp
            rwa [update_self] at hseat
          · rwa [update_of_ne hjp] at hseat
        obtain ⟨hmem, hgrant⟩ := h.seated j ⟨hused, hseat'⟩
        exact ⟨hsub hmem, hgrant⟩
    · have hri : r ≠ .slot i := by
        rintro rfl
        rw [hcred, update_self] at hp
        exact false_ne_true hp
      have hrp : r ≠ parent := by
        rintro rfl
        rw [hcred, update_of_ne hri, update_self] at hp
        exact false_ne_true hp
      rw [hcred, update_of_ne hri, update_of_ne hrp] at hp
      cases r with
      | kernel =>
        obtain ⟨hmem, hgrant⟩ := h.armed .kernel trivial hp
        exact ⟨hA _ hmem hrp, hgrant⟩
      | slot j =>
        have hj := hother j fun heq => hri (congrArg Ref.slot heq)
        rw [Present, hj] at hr
        rw [pidOf, hj]
        obtain ⟨hmem, hgrant⟩ := h.armed (.slot j) hr hp
        exact ⟨hA _ hmem hrp, hgrant⟩
  by_cases hp : (s.cred parent).pending = true
  · refine ⟨insert c.pid H, A.erase parent, subset_insert _ _,
      key _ _ (subset_insert _ _) (fun _ => mem_insert_self _ _)
        (fun r hr hrp => mem_erase.mpr ⟨hrp, hr⟩) ?_⟩
    -- one more holder, one armed grant less
    have hmem := (h.armed parent hpresent hp).1
    have herase := card_erase_add_one hmem
    have hinsert := card_insert_le c.pid H
    have := h.card_le
    omega
  · exact ⟨H, A, Finset.Subset.refl H,
      key H A (Finset.Subset.refl H) (fun hp' => absurd hp' hp) (fun r hr _ => hr) h.card_le⟩

/-- A child collects the grant that its parent has armed. -/
lemma spawn {parent : Ref} (hlive : s.table.Live parent) (rows cols : ℕ)
    (e : SpawnEnd) : ∃ H' A', H ⊆ H' ∧ Traced (s.procExec (.spawn parent rows cols e)) g H' A' := by
  obtain ⟨htable, hcred⟩ := s.procExec_kept (.spawn parent rows cols e)
  rw [Table.exec, procSpawn] at htable
  rw [procCred, spawnCred] at hcred
  cases hslot : s.table.freeSlot with
  | none =>
    rw [hslot] at htable hcred
    exact ⟨H, A, Finset.Subset.refl H, h.same htable hcred⟩
  | some i =>
    have hfree : (s.table.procs i).used = false := by
      have := List.find?_some hslot
      simpa using this
    rw [hslot] at htable hcred
    have hset : ∀ (t : Table) (c : Process), t.procs = s.table.procs → ∀ j,
        (t.set i c).procs j = if j = i then c else s.table.procs j := by
      intro t c ht j
      change update t.procs i c j = _
      rw [update_apply, ht]
    cases e with
    | failsEarly =>
      have hprocs := hset { s.table with nextPid := s.table.nextPid + 1 }
        { s.table.newProcess with used := false } rfl
      refine ⟨H, A, Finset.Subset.refl H, h.mono (fun j hj => ?_) fun r hr => ?_⟩
      · rw [htable, hprocs] at hj ⊢
        split at hj
        next => exact absurd hj false_ne_true
        next hji => rw [if_neg hji]
      · have hri : r ≠ .slot i := by
          rintro rfl
          rw [Present, htable, hprocs, if_pos rfl] at hr
          exact false_ne_true hr
        rw [hcred]
        simp only [update_of_ne hri]
        exact ⟨id, id⟩
    -- whether the child then fails is all the same: the grant is spent
    | failsLate e | succeeds =>
      exact h.spawned hlive hfree (fun j => by rw [htable]; exact hset _ _ rfl j) rfl hcred

/-- A grant by root. -/
lemma grant (i : Fin maxProcesses) :
    Traced { s with
      cred := update s.cred (.slot i) { s.cred (.slot i) with pending := true } }
      (g ++ [((s.table.procs i).pid, rootUid)]) H (insert (.slot i) A) := by
  refine ⟨fun j hj => ?_, fun r hr hp => ?_, ?_⟩
  · have hseat := hj.2
    rw [apply_update (fun _ => Cred.seat), update_eq_self] at hseat
    obtain ⟨hmem, hgrant⟩ := h.seated j ⟨hj.1, hseat⟩
    exact ⟨hmem, mem_append_left _ hgrant⟩
  · by_cases hri : r = .slot i
    · subst hri
      exact ⟨mem_insert_self _ _, mem_append_right _ mem_cons_self⟩
    change (update s.cred (.slot i) _ r).pending = true at hp
    rw [update_of_ne hri] at hp
    obtain ⟨hmem, hgrant⟩ := h.armed r hr hp
    exact ⟨mem_insert_of_mem hmem, mem_append_left _ hgrant⟩
  · have hinsert := card_insert_le (Ref.slot i) A
    have := h.card_le
    rw [length_append, length_singleton]
    omega

/-- A step keeps the trace, with the grant it may make. -/
lemma step {op : SeatOp} (hop : s.Allows op) :
    ∃ H' A', H ⊆ H' ∧ Traced (s.exec op).1 (g ++ s.granted op) H' A' := by
  have hsame : ∀ {s' : Seats}, s'.table = s.table → s'.cred = s.cred →
      ∃ H' A', H ⊆ H' ∧ Traced s' (g ++ []) H' A' := by
    intro s' htable hcred
    rw [append_nil]
    exact ⟨H, A, Finset.Subset.refl H, h.same htable hcred⟩
  cases op with
  | proc op =>
    rw [show s.granted (.proc op) = [] from rfl, append_nil]
    have hchange : Change s.table op (s.table.exec op).1 :=
      procStep_change (show procStep (fun _ _ => True) s.table (op, (s.table.exec op).2) _ from
        ⟨⟨hop, trivial⟩, rfl⟩)
    obtain ⟨htable, hcred⟩ := s.procExec_kept op
    by_cases hspawn : ∃ parent rows cols e, op = .spawn parent rows cols e
    · obtain ⟨parent, rows, cols, e, rfl⟩ := hspawn
      exact h.spawn hop rows cols e
    have hcred' : s.procCred op = s.cred := by
      cases op with
      | spawn parent rows cols e => exact absurd ⟨parent, rows, cols, e, rfl⟩ hspawn
      | _ => rfl
    cases hchange with
    | removes hremoves _ =>
      refine ⟨H, A, Finset.Subset.refl H, h.mono (fun i hi => ?_) fun r _ => ?_⟩
      · change ((s.procExec op).table.procs i).used = true at hi
        change ((s.procExec op).table.procs i).kin = _
        rw [htable] at hi ⊢
        refine hremoves.2.2 i fun hvictim => ?_
        exact false_ne_true ((hremoves.2.1 i hvictim).2.symm.trans hi)
      · change (((s.procExec op).cred r).seat = true → _) ∧
          (((s.procExec op).cred r).pending = true → _)
        rw [hcred, hcred']
        exact ⟨id, id⟩
    | fails | spawns => exact absurd ⟨_, _, _, _, rfl⟩ hspawn
  | login i who =>
    cases who with
    | error e => exact hsame rfl rfl
    | ok uid =>
      rw [show s.granted (.login i (.ok uid)) = [] from rfl, append_nil]
      refine ⟨H, A, Finset.Subset.refl H, h.mono (fun _ _ => rfl) fun r _ => ?_⟩
      by_cases hr : r = .slot i
      · subst hr
        simp [Seats.exec]
      · simp [Seats.exec, update_of_ne hr]
  | seatGrant i =>
    rw [granted, Seats.exec]
    split
    next => exact hsame rfl rfl
    next hroot =>
      rw [if_pos rfl, not_not.mp hroot]
      exact ⟨H, _, Finset.Subset.refl H, h.grant i⟩
  | dispGrab i geometry =>
    rw [Seats.exec]
    split
    · exact hsame rfl rfl
    · obtain ⟨htable, hcred⟩ := s.displayAcquire_kept geometry (s.table.procs i).pid
      exact hsame htable hcred
  | dispDrop i => exact hsame (s.displayRelease_table _) (s.displayRelease_cred _)
  | inputOpen i active fd =>
    rw [Seats.exec]
    split_ifs <;> exact hsame rfl rfl

/-- A run keeps the trace, and its holders are among those that are counted. -/
lemma run {ops : List SeatOp} (hops : Legal Seats.Allows Seats.exec s ops) :
    ∃ H' A', H ⊆ H' ∧ Traced (play Seats.exec s ops) (g ++ granters s ops) H' A' ∧
      ∀ pid, SeatHolder s ops pid → pid ∈ H' := by
  induction ops generalizing s g H A with
  | nil =>
    rw [granters, append_nil]
    refine ⟨H, A, Finset.Subset.refl H, h, ?_⟩
    rintro pid ⟨k, i, hi, rfl⟩
    rw [take_nil] at hi ⊢
    exact (h.seated i hi).1
  | cons op ops ih =>
    obtain ⟨H₁, A₁, hsub1, h1⟩ := h.step hops.1
    obtain ⟨H₂, A₂, hsub2, h2, hholders⟩ := ih h1 hops.2
    rw [granters, ← append_assoc]
    refine ⟨H₂, A₂, hsub1.trans hsub2, h2, ?_⟩
    rintro pid ⟨k, i, hi, rfl⟩
    cases k with
    | zero => exact hsub2 (hsub1 (h.seated i hi).1)
    | succ k => exact hholders _ ⟨k, i, hi, rfl⟩

end Steps

end Traced

lemma traced_boot : Traced Seats.boot [] ∅ ∅ :=
  ⟨fun _ h => absurd h.1 false_ne_true, fun _ _ h => absurd h false_ne_true, le_rfl⟩

lemma Seats.not_barred {s : Seats} {i : Fin maxProcesses} (h : ¬ s.Barred i)
    (huid : (s.cred (.slot i)).uid ≠ rootUid) : (s.cred (.slot i)).seat = true := by
  by_contra hseat
  exact h ⟨huid, eq_false_iff.mpr hseat⟩

/-- After any run there have been no more seat holders than grants; whoever holds the seat was
spawned by a process that had made a grant as root, be that a holder or not; and a process that is
not root gets the screen or the keyboard only as a holder. -/
theorem seat_through_root {ops : List SeatOp} (h : Legal Seats.Allows Seats.exec Seats.boot ops) :
    let s := play Seats.exec Seats.boot ops
    {pid | SeatHolder Seats.boot ops pid}.ncard ≤ (granters Seats.boot ops).length ∧
    (∀ i, s.Holds i → ((s.table.procs i).spawner, rootUid) ∈ granters Seats.boot ops) ∧
    ∀ i, s.table.Live (.slot i) → (s.cred (.slot i)).uid ≠ rootUid →
      (∃ geometry v, (s.exec (.dispGrab i geometry)).2 = .ok v) ∨
        (∃ active fd v, (s.exec (.inputOpen i active fd)).2 = .ok v) →
      s.Holds i ∧ SeatHolder Seats.boot ops (s.table.procs i).pid := by
  obtain ⟨H, A, -, htraced, hholders⟩ := traced_boot.run h
  rw [nil_append] at htraced
  refine ⟨?_, fun i hi => (htraced.seated i hi).2, fun i hlive huid hopens => ?_⟩
  · have hsub : {pid | SeatHolder Seats.boot ops pid} ⊆ (H : Set ℕ) := hholders
    have hcard := Set.ncard_le_ncard hsub H.finite_toSet
    rw [Set.ncard_coe_finset] at hcard
    have := htraced.card_le
    omega
  · have hfree : ¬ (play Seats.exec Seats.boot ops).Barred i := by
      intro hbarred
      rcases hopens with ⟨geometry, v, hv⟩ | ⟨active, fd, v, hv⟩
      · rw [Seats.exec, if_pos hbarred] at hv
        cases hv
      · rw [Seats.exec, if_pos hbarred] at hv
        cases hv
    have hholds : (play Seats.exec Seats.boot ops).Holds i := ⟨hlive.1, not_barred hfree huid⟩
    exact ⟨hholds, ops.length, i, by rwa [take_length], by rw [take_length]⟩

/-- A login manager arms a grant, becomes a user and starts a session, which is given the screen. -/
def sessionOps : List SeatOp :=
  [.proc (.spawn .kernel 0 0 .succeeds), .seatGrant 0, .login 0 (.ok 1),
    .proc (.spawn (.slot 0) 0 0 .succeeds)]

theorem session_holds :
    ((play Seats.exec Seats.boot sessionOps).exec (.dispGrab 1 true)).2 = .ok 0 ∧
      SeatHolder Seats.boot sessionOps 2 := by
  have hlegal : Legal Seats.Allows Seats.exec Seats.boot sessionOps :=
    ⟨trivial, ⟨by decide, by decide⟩, ⟨by decide, by decide⟩, ⟨by decide, by decide⟩, trivial⟩
  have hgrab : ((play Seats.exec Seats.boot sessionOps).exec (.dispGrab 1 true)).2 = .ok 0 := by
    decide
  refine ⟨hgrab, ?_⟩
  have hpid : ((play Seats.exec Seats.boot sessionOps).table.procs 1).pid = 2 := by decide
  rw [← hpid]
  exact ((seat_through_root hlegal).2.2 1 ⟨by decide, by decide⟩ (by decide)
    (.inl ⟨true, 0, hgrab⟩)).2

/-! ## Drawing -/

/-- The console on the screen: whether there is one, its pixels `px_w` by `px_h`, and the pixels of a
row. -/
structure Screen where
  active : Bool
  width : ℕ
  height : ℕ
  stride : ℕ
  /-- `px_w` and `px_h` are `int`s. -/
  small : width < 2147483648 ∧ height < 2147483648
  fits : height * stride < 4294967296

/-- `wblit_t`. -/
structure Blit where
  pixels : UInt64
  stride : UInt32
  x : Int32
  y : Int32
  width : Int32
  height : Int32

/-- The clipping of `fbcon_blit` in one direction: the first position, the number of positions, and
how much of the source is skipped. The sum is one of `int`s. -/
def clip (limit : ℕ) (pos size : ℤ) : ℤ × ℤ × ℤ :=
  let c := if pos < 0 then (0, size + pos, -pos) else (pos, size, 0)
  if limit < (c.1 + c.2.1).bmod 4294967296 then (c.1, limit - c.1, c.2.2) else c

/-- The writes of `fbcon_blit`: the place in the framebuffer and that in the source, in pixels. -/
def fbconBlit (t : Screen) (b : Blit) : List (ℤ × ℤ) :=
  if t.active = false then [] else
  let h := clip t.width b.x.toInt b.width.toInt
  let v := clip t.height b.y.toInt b.height.toInt
  (List.range v.2.1.toNat).flatMap fun (row : ℕ) => (List.range h.2.1.toNat).map fun (col : ℕ) =>
    ((v.1 + row) * t.stride % 4294967296 + h.1 + col, (v.2.2 + row) * b.stride.toNat + (h.2.2 + col))

/-- Where row `row` of the source starts. -/
def Blit.line (b : Blit) (row : ℕ) : UInt64 := b.pixels + .ofNat (row * b.stride.toNat * 4)

/-- `sys_dispblit`; `ok` is what `user_range_ok` answers. -/
def Seats.sysDispblit (s : Seats) (i : Fin maxProcesses) (t : Screen) (ok : UInt64 → ℕ → Bool)
    (arg : UInt64) (b : Blit) : Except Errno (List (ℤ × ℤ)) :=
  if ok arg 32 = false then .error .EFAULT
  else if b.width ≤ 0 ∨ b.height ≤ 0 then .ok []
  else if 8192 < b.width ∨ 8192 < b.height ∨ 8192 < b.stride ∨ b.stride.toNat < b.width.toInt then
    .error .EINVAL
  else if ((List.range b.height.toInt.toNat).all fun row =>
      ok (b.line row) (b.width.toInt.toNat * 4)) = false then .error .EFAULT
  -- `display_blit`
  else if s.owner ≠ (s.table.procs i).pid then .error .EPERM
  else .ok (fbconBlit t b)

variable {s : Seats} {i : Fin maxProcesses} {t : Screen} {ok : UInt64 → ℕ → Bool} {arg : UInt64}
  {b : Blit} {writes : List (ℤ × ℤ)}

/-- What is left of one direction, if the sum does not overflow. -/
lemma mem_clip (limit : ℕ) {pos size : ℤ} (hpos : -2147483648 ≤ pos) (hsize : 0 ≤ size)
    (hsum : pos + size < 2147483648) (p o : ℤ) :
    (∃ n < (clip limit pos size).2.1.toNat, p = (clip limit pos size).1 + n ∧
        o = (clip limit pos size).2.2 + n) ↔
      (0 ≤ o ∧ o < size) ∧ p = pos + o ∧ 0 ≤ p ∧ p < limit := by
  have hsame : (pos + size).bmod 4294967296 = pos + size :=
    Int.bmod_eq_of_le (by omega) (by omega)
  unfold clip
  constructor
  · rintro ⟨n, hn, hp, ho⟩
    split_ifs at * <;> grind
  · rintro ⟨ho, hp, h0, hlt⟩
    refine ⟨(p - max pos 0).toNat, ?_⟩
    split_ifs <;> grind

/-- Nothing is cut off if the sum wraps. -/
lemma clip_of_wraps (limit : ℕ) {pos size : ℤ} (hpos : pos < 2147483648) (hsize : size ≤ 8192)
    (hsum : 2147483648 ≤ pos + size) : clip limit pos size = (pos, size, 0) := by
  have hwrap : (pos + size).bmod 4294967296 = pos + size - 4294967296 := by
    rw [Int.bmod_def]
    omega
  unfold clip
  rw [if_neg (show ¬ pos < 0 by omega), if_neg (by dsimp only; omega)]

/-- Whatever the sum, the source is not left. -/
lemma clip_source (limit : ℕ) {pos size : ℤ} {n : ℕ} (hpos : -2147483648 ≤ pos ∧ pos < 2147483648)
    (hsize : 0 ≤ size ∧ size ≤ 8192) (hn : n < (clip limit pos size).2.1.toNat) :
    0 ≤ (clip limit pos size).2.2 + n ∧ (clip limit pos size).2.2 + n < size := by
  obtain hsum | hsum := lt_or_ge (pos + size) 2147483648
  · exact ((mem_clip limit hpos.1 hsize.1 hsum _ _).mp ⟨n, hn, rfl, rfl⟩).1
  · rw [clip_of_wraps limit hpos.2 hsize.2 hsum] at *
    dsimp only at *
    omega

/-- Pixel `(col, row)` of the source lies on the screen at place `p.1`, and is number `p.2` of the
source. -/
def Shows (t : Screen) (b : Blit) (p : ℤ × ℤ) : Prop :=
  t.active = true ∧ ∃ col row : ℤ, (0 ≤ col ∧ col < b.width.toInt) ∧ (0 ≤ row ∧ row < b.height.toInt) ∧
    (0 ≤ b.x.toInt + col ∧ b.x.toInt + col < t.width) ∧
    (0 ≤ b.y.toInt + row ∧ b.y.toInt + row < t.height) ∧
    p = ((b.y.toInt + row) * t.stride + (b.x.toInt + col), row * b.stride.toNat + col)

/-- Rows of the screen are found without overflow. -/
lemma Screen.row_eq {q : ℤ} (h0 : 0 ≤ q) (hlt : q < t.height) :
    q * t.stride % 4294967296 = q * t.stride := by
  refine Int.emod_eq_of_lt (Int.mul_nonneg h0 (Int.natCast_nonneg _)) ?_
  calc q * t.stride ≤ t.height * t.stride :=
        Int.mul_le_mul_of_nonneg_right hlt.le (Int.natCast_nonneg _)
    _ < 4294967296 := mod_cast t.fits

/-- The writes in terms of the two directions. -/
lemma mem_fbconBlit (hactive : t.active = true) {p : ℤ × ℤ} : p ∈ fbconBlit t b ↔
    ∃ n < (clip t.height b.y.toInt b.height.toInt).2.1.toNat,
      ∃ m < (clip t.width b.x.toInt b.width.toInt).2.1.toNat,
        (((clip t.height b.y.toInt b.height.toInt).1 + n) * t.stride % 4294967296 +
            (clip t.width b.x.toInt b.width.toInt).1 + m,
          ((clip t.height b.y.toInt b.height.toInt).2.2 + n) * b.stride.toNat +
            ((clip t.width b.x.toInt b.width.toInt).2.2 + m)) = p := by
  simp [fbconBlit, hactive]

/-- Where no sum overflows, clipping is exact. -/
lemma mem_fbconBlit_iff (hactive : t.active = true) (hw : 0 ≤ b.width.toInt)
    (hh : 0 ≤ b.height.toInt) (hx : b.x.toInt + b.width.toInt < 2147483648)
    (hy : b.y.toInt + b.height.toInt < 2147483648) (p : ℤ × ℤ) :
    p ∈ fbconBlit t b ↔ Shows t b p := by
  have hcol := mem_clip t.width b.x.le_toInt hw hx
  have hrow := mem_clip t.height b.y.le_toInt hh hy
  rw [mem_fbconBlit hactive]
  constructor
  · rintro ⟨n, hn, m, hm, rfl⟩
    obtain ⟨hrow1, hrow2, h0, hlt⟩ := (hrow _ _).mp ⟨n, hn, rfl, rfl⟩
    obtain ⟨hcol1, hcol2, hcol3⟩ := (hcol _ _).mp ⟨m, hm, rfl, rfl⟩
    refine ⟨hactive, _, _, hcol1, hrow1, hcol2 ▸ hcol3, hrow2 ▸ ⟨h0, hlt⟩, ?_⟩
    rw [Screen.row_eq h0 hlt, ← hrow2, ← hcol2]
    grind
  · rintro ⟨-, col, row, hcol1, hrow1, hcol2, hrow2, rfl⟩
    obtain ⟨n, hn, hp, ho⟩ := (hrow _ row).mpr ⟨hrow1, rfl, hrow2⟩
    obtain ⟨m, hm, hp', ho'⟩ := (hcol _ col).mpr ⟨hcol1, rfl, hcol2⟩
    refine ⟨n, hn, m, hm, ?_⟩
    rw [← hp, ← ho, Screen.row_eq hrow2.1 hrow2.2, hp', ho']
    grind

/-- The rectangle does not reach the screen in one direction, and is found not to. -/
def Off (limit : ℕ) (pos size : ℤ) : Prop :=
  pos + size ≤ 0 ∨ limit ≤ max pos 0 ∧ pos + size < 2147483648

/-- The right and the lower edge are `int`s, or nothing is drawn: the rectangle is empty, there is
no console, or one direction keeps all off the screen. -/
def Blit.Clipped (t : Screen) (b : Blit) : Prop :=
  b.x.toInt + b.width.toInt < 2147483648 ∧ b.y.toInt + b.height.toInt < 2147483648 ∨
    (b.width.toInt ≤ 0 ∨ b.height.toInt ≤ 0) ∨ t.active = false ∨
    Off t.width b.x.toInt b.width.toInt ∨ Off t.height b.y.toInt b.height.toInt

/-- A position is left in one direction unless the rectangle is found off the screen. -/
lemma clip_pos_iff (limit : ℕ) {pos size : ℤ} (hpos : -2147483648 ≤ pos ∧ pos < 2147483648)
    (hsize : 0 < size ∧ size ≤ 8192) :
    0 < (clip limit pos size).2.1.toNat ↔ ¬ Off limit pos size := by
  rw [Off]
  obtain hsum | hsum := lt_or_ge (pos + size) 2147483648
  · have hsame : (pos + size).bmod 4294967296 = pos + size :=
      Int.bmod_eq_of_le (by omega) (by omega)
    unfold clip
    split_ifs <;> grind
  · rw [clip_of_wraps limit hpos.2 hsize.2 hsum]
    dsimp only
    omega

/-- The last position is written outside the screen if the sum wraps. -/
lemma clip_last (limit : ℕ) {pos size : ℤ} (hpos : pos < 2147483648) (hsize : size ≤ 8192)
    (hsum : 2147483648 ≤ pos + size) :
    ∃ n < (clip limit pos size).2.1.toNat, (clip limit pos size).2.2 + n = size - 1 := by
  rw [clip_of_wraps limit hpos hsize hsum]
  exact ⟨(size - 1).toNat, by dsimp only; omega, by dsimp only; omega⟩

/-- The pixels of the source have different numbers. -/
lemma source_inj {width stride col col' row row' : ℤ} (hstride : width ≤ stride)
    (hcol : 0 ≤ col ∧ col < width) (hcol' : 0 ≤ col' ∧ col' < width)
    (h : row * stride + col = row' * stride + col') : row = row' ∧ col = col' := by
  have hrow (r c : ℤ) (hc : 0 ≤ c ∧ c < width) : (r * stride + c) / stride = r := by
    rw [Int.add_comm, Int.add_mul_ediv_right _ _ (by omega), Int.ediv_eq_zero_of_lt hc.1 (by omega),
      Int.zero_add]
  obtain rfl : row = row' := by rw [← hrow row col hcol, h, hrow row' col' hcol']
  exact ⟨rfl, by omega⟩

/-- What is read, whatever the sums: a pixel of the source. -/
lemma mem_fbconBlit_source (hw : 0 ≤ b.width.toInt ∧ b.width.toInt ≤ 8192)
    (hh : 0 ≤ b.height.toInt ∧ b.height.toInt ≤ 8192) {p : ℤ × ℤ} (h : p ∈ fbconBlit t b) :
    ∃ row col : ℤ, (0 ≤ row ∧ row < b.height.toInt) ∧ (0 ≤ col ∧ col < b.width.toInt) ∧
      p.2 = row * b.stride.toNat + col := by
  have hactive : t.active = true := by
    by_contra hnone
    simp [fbconBlit, hnone] at h
  obtain ⟨n, hn, m, hm, rfl⟩ := (mem_fbconBlit hactive).mp h
  refine ⟨_, _, clip_source _ ⟨b.y.le_toInt, b.y.toInt_lt⟩ hh hn,
    clip_source _ ⟨b.x.le_toInt, b.x.toInt_lt⟩ hw hm, rfl⟩

/-- Where a sum wraps and something is drawn, the last column or row is drawn although it does not
show. -/
lemma exists_not_shows (hw : 0 < b.width.toInt ∧ b.width.toInt ≤ 8192)
    (hh : 0 < b.height.toInt ∧ b.height.toInt ≤ 8192) (hstride : b.width.toInt ≤ b.stride.toNat)
    (h : ¬ b.Clipped t) : ∃ p ∈ fbconBlit t b, ¬ Shows t b p := by
  rw [Blit.Clipped, or_comm (a := _ ∧ _)] at h
  push Not at h
  obtain ⟨⟨-, hactive, hx, hy⟩, hwraps⟩ := h
  have hxs : -2147483648 ≤ b.x.toInt ∧ b.x.toInt < 2147483648 := ⟨b.x.le_toInt, b.x.toInt_lt⟩
  have hys : -2147483648 ≤ b.y.toInt ∧ b.y.toInt < 2147483648 := ⟨b.y.le_toInt, b.y.toInt_lt⟩
  have hcols := (clip_pos_iff t.width hxs hw).mpr hx
  have hrows := (clip_pos_iff t.height hys hh).mpr hy
  obtain ⟨hsmallw, hsmallh⟩ := t.small
  by_cases hsum : b.x.toInt + b.width.toInt < 2147483648
  · obtain ⟨n, hn, hlast⟩ := clip_last t.height hys.2 hh.2 (hwraps hsum)
    refine ⟨_, (mem_fbconBlit (by simpa using hactive)).mpr ⟨n, hn, 0, hcols, rfl⟩, ?_⟩
    rintro ⟨-, col, row, hcol, hrow, -, hshown, heq⟩
    have hsource := clip_source t.width hxs ⟨hw.1.le, hw.2⟩ hcols
    have := (source_inj hstride hsource hcol (Prod.ext_iff.mp heq).2).1
    omega
  · obtain ⟨m, hm, hlast⟩ := clip_last t.width hxs.2 hw.2 (by omega)
    refine ⟨_, (mem_fbconBlit (by simpa using hactive)).mpr ⟨0, hrows, m, hm, rfl⟩, ?_⟩
    rintro ⟨-, col, row, hcol, hrow, hshown, -, heq⟩
    have hsource := clip_source t.width hxs ⟨hw.1.le, hw.2⟩ hm
    have := (source_inj hstride hsource hcol (Prod.ext_iff.mp heq).2).2
    omega

/-- Nothing shows of a rectangle off the screen. -/
lemma Off.not_between {limit : ℕ} {pos size : ℤ} (h : Off limit pos size) {o : ℤ}
    (ho : 0 ≤ o ∧ o < size) : ¬ (0 ≤ pos + o ∧ pos + o < limit) := by
  rw [Off] at h
  omega

/-- So it is under the condition. -/
lemma Blit.Clipped.mem_iff (h : b.Clipped t) (hw : 0 < b.width.toInt ∧ b.width.toInt ≤ 8192)
    (hh : 0 < b.height.toInt ∧ b.height.toInt ≤ 8192) (p : ℤ × ℤ) :
    p ∈ fbconBlit t b ↔ Shows t b p := by
  have hxs : -2147483648 ≤ b.x.toInt ∧ b.x.toInt < 2147483648 := ⟨b.x.le_toInt, b.x.toInt_lt⟩
  have hys : -2147483648 ≤ b.y.toInt ∧ b.y.toInt < 2147483648 := ⟨b.y.le_toInt, b.y.toInt_lt⟩
  by_cases hactive : t.active = false
  · simp [fbconBlit, Shows, hactive]
  rw [Bool.not_eq_false] at hactive
  obtain hsums | hempty | hnone | hoff | hoff := h
  · exact mem_fbconBlit_iff hactive hw.1.le hh.1.le hsums.1 hsums.2 p
  · omega
  · simp [hactive] at hnone
  · refine iff_of_false (fun hp => ?_) ?_
    · obtain ⟨n, hn, m, hm, rfl⟩ := (mem_fbconBlit hactive).mp hp
      exact (clip_pos_iff t.width hxs hw).mp (by omega) hoff
    · rintro ⟨-, col, row, hcol, -, hshown, -⟩
      exact hoff.not_between hcol hshown
  · refine iff_of_false (fun hp => ?_) ?_
    · obtain ⟨n, hn, m, hm, rfl⟩ := (mem_fbconBlit hactive).mp hp
      exact (clip_pos_iff t.height hys hh).mp (by omega) hoff
    · rintro ⟨-, col, row, -, hrow, -, hshown, -⟩
      exact hoff.not_between hrow hshown

/-- Accepted blits are clipped exactly if and only if the edges are `int`s or nothing is drawn:
every pixel of the source that lies on the screen is drawn and nothing else is. What is read lies
in a row that was checked, in any case. -/
theorem dispblit_exact_iff (h : s.sysDispblit i t ok arg b = .ok writes) :
    ((∀ p, p ∈ writes ↔ Shows t b p) ↔ b.Clipped t) ∧
      ∀ p ∈ writes, ∃ row col : ℤ, (0 ≤ row ∧ row < b.height.toInt) ∧
        (0 ≤ col ∧ col < b.width.toInt) ∧ p.2 = row * b.stride.toNat + col ∧
        ok (b.line row.toNat) (b.width.toInt.toNat * 4) = true := by
  unfold Seats.sysDispblit at h
  split_ifs at h with _ hempty hsizes hrows
  · cases h
    simp only [Int32.le_iff_toInt_le, Int32.toInt_zero] at hempty
    refine ⟨iff_of_true (fun p => iff_of_false not_mem_nil ?_) (.inr (.inl hempty)), by simp⟩
    rintro ⟨-, col, row, hcol, hrow, -⟩
    omega
  · cases h
    have h8192 : (8192 : Int32).toInt = 8192 := by decide
    simp only [Int32.le_iff_toInt_le, Int32.lt_iff_toInt_lt, Int32.toInt_zero, h8192] at hempty hsizes
    have hw : 0 < b.width.toInt ∧ b.width.toInt ≤ 8192 := by omega
    have hh : 0 < b.height.toInt ∧ b.height.toInt ≤ 8192 := by omega
    refine ⟨⟨fun hall => ?_, fun hclip => hclip.mem_iff hw hh⟩, fun p hp => ?_⟩
    · by_contra hclip
      obtain ⟨p, hp, hnot⟩ := exists_not_shows hw hh (by omega) hclip
      exact hnot ((hall p).mp hp)
    · obtain ⟨row, col, hrow, hcol, hsource⟩ := mem_fbconBlit_source ⟨hw.1.le, hw.2⟩ ⟨hh.1.le, hh.2⟩ hp
      rw [not_eq_false, all_eq_true] at hrows
      exact ⟨row, col, hrow, hcol, hsource, hrows row.toNat (mem_range.mpr (by omega))⟩

/-- The machine of `sessionOps` once the session has the screen. -/
def session : Seats := ((play Seats.exec Seats.boot sessionOps).exec (.dispGrab 1 true)).1

/-- A screen of 640 by 480 pixels. -/
def smallScreen : Screen := ⟨true, 640, 480, 640, by decide, by decide⟩

/-- One pixel, to be drawn in the first row. -/
def pixelAt (x : Int32) : Blit := ⟨0x40000000, 1, x, 0, 1, 1⟩

theorem pixel_shown :
    session.sysDispblit 1 smallScreen (fun _ _ => true) 0 (pixelAt 639) = .ok [(639, 0)] ∧
      Shows smallScreen (pixelAt 639) (639, 0) := by
  have h : session.sysDispblit 1 smallScreen (fun _ _ => true) 0 (pixelAt 639) =
      .ok [(639, 0)] := by decide
  exact ⟨h, ((dispblit_exact_iff h).1.mpr (.inl (by decide)) _).mp mem_cons_self⟩

/-- At the largest column the sum wraps, so that a pixel outside the screen is written. -/
theorem pixel_beyond :
    session.sysDispblit 1 smallScreen (fun _ _ => true) 0 (pixelAt 2147483647) =
        .ok [(2147483647, 0)] ∧
      ¬ Shows smallScreen (pixelAt 2147483647) (2147483647, 0) := by
  refine ⟨by decide, ?_⟩
  rintro ⟨-, col, row, hcol, -, hx, -⟩
  have hwide : (pixelAt 2147483647).x.toInt = 2147483647 := by decide
  change _ ∧ _ < (640 : ℤ) at hx
  omega

end Wos.Proc
