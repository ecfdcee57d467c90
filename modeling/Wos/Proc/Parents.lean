import Wos.Proc.Table

/-!
# Parents and children

Whether the parent of a process, a pointer into a table whose slots are used again, is the process
that spawned it. It is until a process is torn down that still has children in the table: from then
on they point to a free slot, and to a stranger once the slot is used again. Nothing gives orphans
another parent.

## Main definitions

* `Truthful`: every parent is the process that spawned the child;
* `Careful`: the step tears down no process that has children;
* `Below`: a process and its descendants by parent pointers.

## Main results

* `Change.truthful_iff`: exactly the careful steps keep parents truthful;
* `run_truthful`: on careful runs parents are truthful and there are no cycles, so that a process
  only reaps and resizes what it has spawned.
-/

namespace Wos.Proc

open List Option
open Bool hiding not_not not_or

/-! ## Kinship -/

/-- What a process says about its place among the others. -/
structure Kin where
  used : Bool
  pid : ℕ
  parent : Option Ref
  spawner : ℕ

/-- The kinship of a process. -/
def Process.kin (p : Process) : Kin := ⟨p.used, p.pid, p.parent, p.spawner⟩

/-- Who reaps in a step. -/
def Op.reaper : Op → Option Ref
  | .reap caller _ => some caller
  | .reapOrphans caller _ => some caller
  | _ => none

namespace Table

/-- The process is in the table, or the kernel's own. -/
def Present (t : Table) : Ref → Prop
  | .kernel => True
  | .slot i => (t.procs i).used = true

/-- `p` is the parent of `q` by its pointer. -/
def IsParent (t : Table) (p q : Ref) : Prop :=
  ∃ i, q = .slot i ∧ (t.procs i).used = true ∧ (t.procs i).parent = some p

/-- `q` descends from `p`. -/
def Below (t : Table) : Ref → Ref → Prop := Relation.TransGen t.IsParent

/-- Every parent is in the table, or the kernel's own, and is the process that spawned the child. -/
def Truthful (t : Table) : Prop :=
  ∀ i, (t.procs i).used = true → ∃ p, (t.procs i).parent = some p ∧ t.Present p ∧
    t.pidOf p = (t.procs i).spawner

/-- No process has this one for a parent. -/
def Childless (t : Table) (i : Fin maxProcesses) : Prop :=
  ∀ j, (t.procs j).used = true → (t.procs j).parent ≠ some (.slot i)

/-- Whom a step tears down. -/
def victims (t : Table) : Op → List (Fin maxProcesses)
  | .reap caller pid => ((List.finRange maxProcesses).find? fun i =>
      t.isChild caller pid i && (t.procs i).reapable).toList
  | .reapOrphans caller keep => (List.finRange maxProcesses).filter (t.isOrphan caller keep)
  | _ => []

/-- The step tears down no process that has children. -/
def Careful (t : Table) (op : Op) : Prop := ∀ i ∈ t.victims op, t.Childless i

/-- Pids are given out in increasing order, and a process is younger than its spawner. -/
structure Sound (t : Table) : Prop where
  next_pos : 0 < t.nextPid
  /-- The pids in the table were given out. -/
  pid_lt : ∀ i, (t.procs i).used = true → (t.procs i).pid < t.nextPid
  /-- A process is younger than its spawner. -/
  spawner_lt : ∀ i, (t.procs i).used = true → (t.procs i).spawner < (t.procs i).pid

/-- The table with the processes of `S` torn down, as far as kinship is concerned. -/
def Removes (t t' : Table) (S : Set (Fin maxProcesses)) : Prop :=
  t'.nextPid = t.nextPid ∧ (∀ i ∈ S, (t.procs i).used = true ∧ (t'.procs i).used = false) ∧
    ∀ i ∉ S, (t'.procs i).kin = (t.procs i).kin

end Table

open Table

/-! ## What a step does to kinship -/

/-- Everything a step can do to kinship. -/
inductive Change (t : Table) : Op → Table → Prop
  /-- Nobody comes, and the victims go, none of which is the parent of another. -/
  | removes {op : Op} {t' : Table} (h : t.Removes t' {i | i ∈ t.victims op})
      (hstrangers : ∀ i ∈ t.victims op, ∀ j ∈ t.victims op, (t.procs j).parent ≠ some (.slot i)) :
      Change t op t'
  /-- A spawn fails in a free slot. -/
  | fails {caller : Ref} {rows cols : ℕ} {e : SpawnEnd} {t' : Table} (i : Fin maxProcesses)
      (hfree : (t.procs i).used = false) (hfree' : (t'.procs i).used = false)
      (hkept : ∀ j ≠ i, t'.procs j = t.procs j) (hnext : t'.nextPid = t.nextPid + 1) :
      Change t (.spawn caller rows cols e) t'
  /-- A spawn succeeds in a free slot. -/
  | spawns {caller : Ref} {rows cols : ℕ} {e : SpawnEnd} {t' : Table} (i : Fin maxProcesses)
      (hlive : t.Live caller) (hfree : (t.procs i).used = false)
      (hkin : (t'.procs i).kin = ⟨true, t.nextPid, some caller, t.pidOf caller⟩)
      (hkept : ∀ j ≠ i, t'.procs j = t.procs j) (hnext : t'.nextPid = t.nextPid + 1) :
      Change t (.spawn caller rows cols e) t'

variable {i : Fin maxProcesses} {op : Op}

section Changes

variable {t : Table}

@[simp]
lemma Table.set_self (i : Fin maxProcesses) (p : Process) : (t.set i p).procs i = p :=
  Function.update_self ..

lemma Table.set_of_ne {j : Fin maxProcesses} (h : j ≠ i) (p : Process) :
    (t.set i p).procs j = t.procs j :=
  Function.update_of_ne h ..

/-- Replacing a process by one of the same kinship tears nobody down. -/
lemma Table.removes_set {p : Process} (h : p.kin = (t.procs i).kin) :
    t.Removes (t.set i p) ∅ := by
  refine ⟨rfl, fun j hj => absurd hj (Set.notMem_empty j), fun j _ => ?_⟩
  by_cases hj : j = i
  · subst hj
    rw [set_self, h]
  · rw [set_of_ne hj]

variable {t' : Table}

lemma Table.Removes.trans_empty {t'' : Table} (h : t.Removes t' ∅) (h' : t'.Removes t'' ∅) :
    t.Removes t'' ∅ :=
  ⟨h'.1.trans h.1, fun i hi => absurd hi (Set.notMem_empty i), fun i hi =>
    (h'.2.2 i hi).trans (h.2.2 i hi)⟩

lemma Table.removes_refl : t.Removes t ∅ :=
  ⟨rfl, fun i hi => absurd hi (Set.notMem_empty i), fun _ _ => rfl⟩

lemma Table.removes_teardown (h : (t.procs i).used = true) : t.Removes (t.teardown i) {i} := by
  refine ⟨rfl, ?_, fun j hj => ?_⟩
  · rintro j rfl
    exact ⟨h, by rw [teardown, set_self]⟩
  · rw [teardown, set_of_ne (by simpa using hj)]

lemma Table.kin_isOrphan {me : Ref} {keep : ℤ}
    (h : t'.procs i = t.procs i) : t'.isOrphan me keep i = t.isOrphan me keep i := by
  rw [isOrphan, isOrphan, h]

/-- The loop of `proc_reap_orphans` tears down the orphans among the slots it goes over. -/
lemma reapOrphans_spec (me : Ref) (keep : ℤ) {is : List (Fin maxProcesses)} (hnodup : is.Nodup) :
    t.Removes (Table.reapOrphans me keep is t).2 {i | i ∈ is.filter (t.isOrphan me keep)} ∧
      (Table.reapOrphans me keep is t).1 =
        (is.filter (t.isOrphan me keep)).map fun i => (t.procs i).pid := by
  induction is generalizing t with
  | nil => exact ⟨by simpa [Table.reapOrphans] using removes_refl, rfl⟩
  | cons i is ih =>
    obtain ⟨hi, hnodup⟩ := nodup_cons.mp hnodup
    by_cases horphan : t.isOrphan me keep i
    · -- the slots still to come are as before
      have hused : (t.procs i).used = true := by
        simp only [isOrphan, and_eq_true] at horphan
        exact horphan.1.1.1
      have hsame : ∀ j ∈ is, (t.teardown i).isOrphan me keep j = t.isOrphan me keep j := by
        intro j hj
        have hne : j ≠ i := fun h => hi (h ▸ hj)
        exact kin_isOrphan (set_of_ne hne _)
      have hfilter : is.filter ((t.teardown i).isOrphan me keep) = is.filter (t.isOrphan me keep) :=
        filter_congr hsame
      obtain ⟨⟨hnext, hgone, hkept⟩, hpids⟩ := ih (t := t.teardown i) hnodup
      rw [hfilter] at hgone hkept hpids
      rw [Table.reapOrphans, if_pos horphan, filter_cons_of_pos horphan]
      dsimp only
      refine ⟨⟨hnext, fun j hj => ?_, fun j hj => ?_⟩, ?_⟩
      · rcases mem_cons.mp hj with rfl | hj
        · refine ⟨hused, ?_⟩
          have hj' : j ∉ {j | j ∈ is.filter (t.isOrphan me keep)} := fun h =>
            hi (mem_filter.mp h).1
          have hkin := congrArg Kin.used (hkept j hj')
          exact hkin.trans (congrArg Process.used (set_self j _))
        · have hne : j ≠ i := fun h => hi (h ▸ (mem_filter.mp hj).1)
          obtain ⟨hbefore, hafter⟩ := hgone j hj
          rw [teardown, set_of_ne hne] at hbefore
          exact ⟨hbefore, hafter⟩
      · have hj' : j ≠ i ∧ j ∉ {j | j ∈ is.filter (t.isOrphan me keep)} := by
          simpa [not_or] using hj
        rw [hkept j hj'.2, teardown, set_of_ne hj'.1]
      · rw [map_cons, hpids]
        refine congrArg _ (map_congr_left fun j hj => ?_)
        have hne : j ≠ i := fun h => hi (h ▸ (mem_filter.mp hj).1)
        rw [teardown, set_of_ne hne]
    · rw [Table.reapOrphans, if_neg horphan, filter_cons_of_neg horphan]
      exact ih hnodup

/-- A depth of `resize_children` below `p` changes only what descends from `p`, and no kinship. -/
def Table.Resizes (t : Table) (p : Ref) (t' : Table) : Prop :=
  t.Removes t' ∅ ∧ ∀ j, t'.procs j ≠ t.procs j → t.Below p (.slot j)

lemma Table.resizes_refl (p : Ref) : t.Resizes p t := ⟨removes_refl, fun _ hj => absurd rfl hj⟩

lemma Table.Removes.isParent (h : t.Removes t' ∅) : t'.IsParent = t.IsParent := by
  funext p q
  have hkin := fun i => h.2.2 i (Set.notMem_empty i)
  refine propext (exists_congr fun i => and_congr_right fun _ => ?_)
  rw [show (t'.procs i).used = (t.procs i).used from congrArg Kin.used (hkin i),
    show (t'.procs i).parent = (t.procs i).parent from congrArg Kin.parent (hkin i)]

/-- Only descendants change, and only their sizes. -/
lemma resizeChildren_spec (rows cols depth : ℕ) (p : Ref) :
    t.Resizes p (Table.resizeChildren rows cols depth p t) := by
  induction depth generalizing t p with
  | zero => exact resizes_refl p
  | succ depth ih =>
    rw [Table.resizeChildren]
    -- the loop over the slots, from any table it may have reached
    refine foldlRecOn (motive := t.Resizes p) _ _ (resizes_refl p) fun t' h i _ => ?_
    split_ifs with hchild
    · exact h
    have hset : t'.Removes (t'.set i (resized (t'.procs i) rows cols)) ∅ := removes_set rfl
    have hrec := ih (t := t'.set i (resized (t'.procs i) rows cols)) (.slot i)
    have hi : t.IsParent p (.slot i) := by
      rw [← h.1.isParent]
      simp only [or_eq_true, not_eq_true', bne_iff_ne, ne_eq, not_or,
        not_eq_false, not_not] at hchild
      exact ⟨i, rfl, hchild.1.1, hchild.1.2⟩
    refine ⟨(h.1.trans_empty hset).trans_empty hrec.1, fun j hj => ?_⟩
    by_cases hdeep : (Table.resizeChildren rows cols depth (.slot i)
        (t'.set i (resized (t'.procs i) rows cols))).procs j =
          (t'.set i (resized (t'.procs i) rows cols)).procs j
    · rw [hdeep] at hj
      by_cases hji : j = i
      · rw [hji]
        exact .single hi
      · rw [set_of_ne hji] at hj
        exact h.2 j hj
    · -- changed further down, below the child
      have hbelow := hrec.2 j hdeep
      rw [Below, hset.isParent, h.1.isParent] at hbelow
      exact Relation.TransGen.head hi hbelow

/-- The same after one process was given another of the same kinship. -/
lemma resizeChildren_set (rows cols depth : ℕ) (i : Fin maxProcesses) (p : Process)
    (hp : p.kin = (t.procs i).kin) :
    t.Removes (Table.resizeChildren rows cols depth (.slot i) (t.set i p)) ∅ ∧
      ∀ j, (Table.resizeChildren rows cols depth (.slot i) (t.set i p)).procs j ≠ t.procs j →
        j = i ∨ t.Below (.slot i) (.slot j) := by
  have hset : t.Removes (t.set i p) ∅ := removes_set hp
  obtain ⟨hrest, hbelow⟩ := resizeChildren_spec (t := t.set i p) rows cols depth (.slot i)
  refine ⟨hset.trans_empty hrest, fun j hj => ?_⟩
  by_cases hji : j = i
  · exact .inl hji
  · right
    have hdeep := hbelow j (by rwa [set_of_ne hji])
    rwa [Below, hset.isParent] at hdeep

/-- `sys_setsize` changes only a child of the caller and what descends from it, and no kinship. -/
lemma setSize_spec (caller : Ref) (pid : ℤ) (rows cols : ℕ) :
    t.Resizes caller (t.setSize caller pid rows cols).2 := by
  rw [Table.setSize]
  cases hfind : t.procByPid pid with
  | none => exact resizes_refl caller
  | some i =>
    by_cases hparent : (t.procs i).parent = some caller
    · have hused : (t.procs i).used = true := by
        have hi := find?_some hfind
        simp only [and_eq_true] at hi
        exact hi.1
      have hchild : t.IsParent caller (.slot i) := ⟨i, rfl, hused, hparent⟩
      dsimp only
      rw [if_neg (by simp [hparent])]
      dsimp only
      generalize hp : ({ resized (t.procs i) rows cols with ownTerminal := true } : Process) = p
      have hkin : p.kin = (t.procs i).kin := by
        rw [← hp]
        rfl
      obtain ⟨hrest, hbelow⟩ := resizeChildren_set rows cols maxProcesses i p hkin
      refine ⟨hrest, fun j hj => ?_⟩
      rcases hbelow j hj with rfl | hdeep
      · exact .single hchild
      · exact .head hchild hdeep
    · dsimp only
      rw [if_pos (by simpa using hparent)]
      exact resizes_refl caller

lemma Process.exited_of_reapable {c : Process} (h : c.reapable = true) : c.exited = true := by
  rw [reapable, and_eq_true] at h
  exact h.1

/-- The victims of a step have exited, and are children of whoever reaps them. -/
lemma Table.mem_victims (h : i ∈ t.victims op) :
    ∃ caller, op.reaper = some caller ∧ (t.procs i).used = true ∧
      (t.procs i).parent = some caller ∧ (t.procs i).exited = true := by
  cases op with
  | reap caller pid =>
    have hi := find?_some (mem_toList.mp h)
    simp only [isChild, and_eq_true, decide_eq_true_eq] at hi
    exact ⟨caller, rfl, hi.1.1.1, hi.1.1.2, Process.exited_of_reapable hi.2⟩
  | reapOrphans caller keep =>
    have hi := (mem_filter.mp h).2
    simp only [isOrphan, and_eq_true, decide_eq_true_eq] at hi
    exact ⟨caller, rfl, hi.1.1.1, hi.1.1.2, Process.exited_of_reapable hi.1.2⟩
  | _ => cases h

/-- A process that reaps others has not exited, so it is no victim. -/
lemma Table.victims_strangers (hallows : t.Allows op) {j : Fin maxProcesses}
    (hi : i ∈ t.victims op) (hj : j ∈ t.victims op) : (t.procs j).parent ≠ some (.slot i) := by
  intro hparent
  obtain ⟨caller, hreaper, -, -, hexited⟩ := mem_victims hi
  obtain ⟨caller', hreaper', -, hparent', -⟩ := mem_victims hj
  obtain rfl : caller = caller' := mem_unique hreaper hreaper'
  obtain rfl : Ref.slot i = caller := mem_unique hparent hparent'
  have hlive : t.Live (.slot i) := by
    cases op with
    | reap caller pid | reapOrphans caller keep =>
      obtain rfl := some.inj hreaper
      exact hallows
    | _ => cases hreaper
  exact Bool.false_ne_true (hlive.2.symm.trans hexited)

/-- Every step is one of these. -/
lemma procStep_change {allowed : Table → Op → Prop} {l : Op × Reaped}
    (h : procStep allowed t l t') : Change t l.1 t' := by
  obtain ⟨op, pids⟩ := l
  obtain ⟨⟨hallows, -⟩, hexec⟩ := h
  have hnone : ∀ {op : Op} {t' : Table}, t.victims op = [] → t.Removes t' ∅ → Change t op t' := by
    intro op t' hv hr
    refine .removes ?_ fun i hi => ?_
    · rw [hv]
      simpa using hr
    · rw [hv] at hi
      cases hi
  have hchange : Change t op (t.exec op).1 := by
    cases op with
    | spawn caller rows cols e =>
      rw [exec, procSpawn]
      cases hslot : t.freeSlot with
      | none => exact hnone rfl removes_refl
      | some i =>
        have hfree : (t.procs i).used = false := by
          have := find?_some hslot
          simpa using this
        cases e with
        | failsEarly | failsLate e =>
          exact .fails i hfree (by simp [Table.set]) (fun j hj => set_of_ne hj _) rfl
        | succeeds =>
          refine .spawns i hallows hfree ?_ (fun j hj => set_of_ne hj _) rfl
          simp [Table.set, Process.kin, newChild, newProcess]
    | exit i status | schedule i s => exact hnone rfl (removes_set rfl)
    | kill pid =>
      rw [exec, procKill]
      cases t.procByPid pid with
      | none => exact hnone rfl removes_refl
      | some i =>
        dsimp only
        split
        · exact hnone rfl removes_refl
        · exact hnone rfl (removes_set rfl)
    | reap caller pid =>
      refine .removes ?_ fun i hi j hj => victims_strangers hallows hi hj
      rw [exec, reapOne, victims]
      cases hfind : (finRange maxProcesses).find? fun i =>
          t.isChild caller pid i && (t.procs i).reapable with
      | none => simpa using removes_refl
      | some i =>
        have hi := find?_some hfind
        simp only [isChild, and_eq_true] at hi
        simpa using removes_teardown hi.1.1.1
    | reapOrphans caller keep =>
      refine .removes ?_ fun i hi j hj => victims_strangers hallows hi hj
      rw [exec, procReapOrphans, victims]
      exact (reapOrphans_spec caller keep (nodup_finRange maxProcesses)).1
    | setSize caller pid rows cols => exact hnone rfl (setSize_spec caller pid rows cols).1
  rw [hexec] at hchange
  exact hchange

end Changes

/-! ## Truthful parents -/

section Truthful

variable {t t' : Table} {p : Ref}

lemma Table.Present.of_live (h : t.Live p) : t.Present p := by
  cases p with
  | kernel => trivial
  | slot i => exact h.1

/-- A process that stays keeps its pid. -/
lemma Table.pidOf_congr (h : ∀ i, p = .slot i → (t'.procs i).pid = (t.procs i).pid) :
    t'.pidOf p = t.pidOf p := by
  cases p with
  | kernel => rfl
  | slot i => exact h i rfl

lemma Table.Sound.pidOf_lt (h : t.Sound) (hp : t.Present p) : t.pidOf p < t.nextPid := by
  cases p with
  | kernel => exact h.next_pos
  | slot i => exact h.pid_lt i hp

section

variable (hfree : (t.procs i).used = false) (hkept : ∀ j ≠ i, t'.procs j = t.procs j)
  (hp : t.Present p)

include hfree hkept hp

/-- Whoever is there is not in the slot that was free. -/
lemma Table.Present.kept_of_free : t'.Present p := by
  cases p with
  | kernel => trivial
  | slot k =>
    have hk : k ≠ i := by
      rintro rfl
      exact Bool.false_ne_true (hfree.symm.trans hp)
    exact (congrArg Process.used (hkept k hk)).trans hp

lemma Table.pidOf_kept_of_free : t'.pidOf p = t.pidOf p := by
  refine pidOf_congr fun k hk => ?_
  subst hk
  refine congrArg Process.pid (hkept k ?_)
  rintro rfl
  exact Bool.false_ne_true (hfree.symm.trans hp)

end

lemma Table.Truthful.kept_of_free (ht : t.Truthful) (hfree : (t.procs i).used = false)
    (hkept : ∀ j ≠ i, t'.procs j = t.procs j) (j : Fin maxProcesses)
    (hj : (t.procs j).used = true) :
    ∃ p, (t.procs j).parent = some p ∧ t'.Present p ∧ t'.pidOf p = (t.procs j).spawner := by
  obtain ⟨p, hp, hpresent, hpid⟩ := ht j hj
  exact ⟨p, hp, hpresent.kept_of_free hfree hkept,
    (pidOf_kept_of_free hfree hkept hpresent).trans hpid⟩

/-- Every step keeps the order of pids. -/
lemma Change.sound (h : Change t op t') (hs : t.Sound) : t'.Sound := by
  cases h with
  | removes hr _ =>
    -- whoever is there was there before
    have hkin : ∀ i, (t'.procs i).used = true → (t'.procs i).kin = (t.procs i).kin := by
      intro i hi
      refine hr.2.2 i fun hmem => ?_
      exact Bool.false_ne_true ((hr.2.1 i hmem).2.symm.trans hi)
    have hused := fun i hi => (congrArg Kin.used (hkin i hi)).symm.trans hi
    refine ⟨hr.1 ▸ hs.next_pos, fun i hi => ?_, fun i hi => ?_⟩
    · rw [hr.1, show (t'.procs i).pid = (t.procs i).pid from congrArg Kin.pid (hkin i hi)]
      exact hs.pid_lt i (hused i hi)
    · rw [show (t'.procs i).pid = (t.procs i).pid from congrArg Kin.pid (hkin i hi),
        show (t'.procs i).spawner = (t.procs i).spawner from congrArg Kin.spawner (hkin i hi)]
      exact hs.spawner_lt i (hused i hi)
  | fails i _ hfree' hkept hnext =>
    have hsame : ∀ j, (t'.procs j).used = true → t'.procs j = t.procs j := by
      refine fun j hj => hkept j ?_
      rintro rfl
      exact Bool.false_ne_true (hfree'.symm.trans hj)
    refine ⟨hnext ▸ Nat.succ_pos _, fun j hj => ?_, fun j hj => ?_⟩
    · have heq := hsame j hj
      rw [heq] at hj ⊢
      rw [hnext]
      exact (hs.pid_lt j hj).trans (Nat.lt_succ_self _)
    · have heq := hsame j hj
      rw [heq] at hj ⊢
      exact hs.spawner_lt j hj
  | spawns i hlive hfree hkin hkept hnext =>
    have hpid : (t'.procs i).pid = t.nextPid := congrArg Kin.pid hkin
    refine ⟨hnext ▸ Nat.succ_pos _, fun j hj => ?_, fun j hj => ?_⟩
    · rw [hnext]
      by_cases hji : j = i
      · rw [hji, hpid]
        exact Nat.lt_succ_self _
      · rw [hkept j hji] at hj ⊢
        exact (hs.pid_lt j hj).trans (Nat.lt_succ_self _)
    · by_cases hji : j = i
      · rw [hji, hpid, show (t'.procs i).spawner = _ from congrArg Kin.spawner hkin]
        exact hs.pidOf_lt (.of_live hlive)
      · rw [hkept j hji] at hj ⊢
        exact hs.spawner_lt j hj

/-- Parents stay truthful through a step exactly when it tears down no process that has children. -/
theorem Change.truthful_iff (h : Change t op t') (ht : t.Truthful) :
    t'.Truthful ↔ t.Careful op := by
  cases h with
  | removes hr hstrangers =>
    obtain ⟨-, hgone, hkept⟩ := hr
    constructor
    · -- a child of a victim would have lost its parent
      intro ht' i hi j hj hparent
      have hkin := hkept j fun hjv => hstrangers i hi j hjv hparent
      obtain ⟨p, hp, hpresent, -⟩ := ht' j ((congrArg Kin.used hkin).trans hj)
      obtain rfl : .slot i = p := some.inj
        (hparent.symm.trans ((congrArg Kin.parent hkin).symm.trans hp))
      exact Bool.false_ne_true ((hgone i hi).2.symm.trans hpresent)
    · intro hcareful i hi
      have hkin := hkept i fun hmem => Bool.false_ne_true ((hgone i hmem).2.symm.trans hi)
      have hused : (t.procs i).used = true := (congrArg Kin.used hkin).symm.trans hi
      obtain ⟨p, hp, hpresent, hpid⟩ := ht i hused
      -- the parent is no victim, as it has a child
      have hstays : ∀ k, p = .slot k → (t'.procs k).kin = (t.procs k).kin := by
        rintro k rfl
        exact hkept k fun hk => hcareful k hk i hused hp
      refine ⟨p, (congrArg Kin.parent hkin).trans hp, ?_, ?_⟩
      · cases p with
        | kernel => trivial
        | slot k => exact (congrArg Kin.used (hstays k rfl)).trans hpresent
      · rw [pidOf_congr fun k hk => congrArg Kin.pid (hstays k hk), hpid]
        exact (congrArg Kin.spawner hkin).symm
  | fails i hfree hfree' hkept hnext =>
    refine iff_of_true (fun j hj => ?_) fun k hk => by cases hk
    have hji : j ≠ i := by
      rintro rfl
      exact Bool.false_ne_true (hfree'.symm.trans hj)
    rw [hkept j hji] at hj ⊢
    exact (ht.kept_of_free hfree hkept) j hj
  | spawns i hlive hfree hkin hkept hnext =>
    refine iff_of_true (fun j hj => ?_) fun k hk => by cases hk
    by_cases hji : j = i
    · subst hji
      refine ⟨_, congrArg Kin.parent hkin, ?_, ?_⟩
      · exact Present.kept_of_free hfree hkept (.of_live hlive)
      · rw [show (t'.procs j).spawner = _ from congrArg Kin.spawner hkin]
        exact pidOf_kept_of_free hfree hkept (.of_live hlive)
    · rw [hkept j hji] at hj ⊢
      exact (ht.kept_of_free hfree hkept) j hj

/-- A parent is older than its child. -/
lemma Table.IsParent.pidOf_lt (hs : t.Sound) (ht : t.Truthful) {q : Ref} (h : t.IsParent p q) :
    t.pidOf p < t.pidOf q := by
  obtain ⟨i, rfl, hi, hp⟩ := h
  obtain ⟨p', hp', -, hpid⟩ := ht i hi
  obtain rfl : p = p' := mem_unique hp hp'
  rw [hpid]
  exact hs.spawner_lt i hi

lemma Table.Below.pidOf_lt (hs : t.Sound) (ht : t.Truthful) {q : Ref} (h : t.Below p q) :
    t.pidOf p < t.pidOf q := by
  induction h with
  | single h => exact h.pidOf_lt hs ht
  | tail _ h ih => exact ih.trans (h.pidOf_lt hs ht)

/-- `p` is in the table, or the kernel's own process, and has spawned `q`. -/
def Table.HasSpawned (t : Table) (p q : Ref) : Prop :=
  t.Present p ∧ ∃ i, q = .slot i ∧ (t.procs i).used = true ∧ (t.procs i).spawner = t.pidOf p

lemma Table.IsParent.hasSpawned (ht : t.Truthful) {q : Ref} (h : t.IsParent p q) :
    t.HasSpawned p q := by
  obtain ⟨i, rfl, hi, hp⟩ := h
  obtain ⟨p', hp', hpresent, hpid⟩ := ht i hi
  obtain rfl : p = p' := mem_unique hp hp'
  exact ⟨hpresent, i, rfl, hi, hpid.symm⟩

/-- Who is reaped in a step was a child of whoever reaps. -/
lemma mem_reaped {pid : ℕ} (h : pid ∈ (t.exec op).2) :
    ∃ caller i, op.reaper = some caller ∧ (t.procs i).pid = pid ∧ t.IsParent caller (.slot i) := by
  cases op with
  | reap caller want =>
    rw [exec, reapOne] at h
    cases hfind : (finRange maxProcesses).find? fun i =>
        t.isChild caller want i && (t.procs i).reapable with
    | none =>
      rw [hfind] at h
      cases h
    | some i =>
      rw [hfind] at h
      obtain rfl := mem_singleton.mp h
      have hi := find?_some hfind
      simp only [isChild, and_eq_true, decide_eq_true_eq] at hi
      exact ⟨caller, i, rfl, rfl, i, rfl, hi.1.1.1, hi.1.1.2⟩
  | reapOrphans caller keep =>
    rw [exec, procReapOrphans, (reapOrphans_spec caller keep (nodup_finRange maxProcesses)).2] at h
    obtain ⟨i, hi, rfl⟩ := mem_map.mp h
    have hi' := (mem_filter.mp hi).2
    simp only [isOrphan, and_eq_true, decide_eq_true_eq] at hi'
    exact ⟨caller, i, rfl, rfl, i, rfl, hi'.1.1.1, hi'.1.1.2⟩
  | _ => cases h

end Truthful

/-! ## Runs -/

lemma sound_boot : Table.boot.Sound :=
  ⟨Nat.zero_lt_one, fun _ h => absurd h Bool.false_ne_true, fun _ h => absurd h Bool.false_ne_true⟩

/-- After careful steps parents are truthful, and the next step keeps them so exactly when it is
careful too. There are no cycles among parents; whoever is reaped was spawned by the process that
reaps; and a process resizes only what it has spawned, and what that has spawned in turn. -/
theorem run_truthful {ls : List (Op × Reaped)} {t : Table}
    (h : Run (procStep Table.Careful) Table.boot ls t) :
    t.Truthful ∧ (∀ p, ¬ t.Below p p) ∧
      ∀ op pids t', procStep (fun _ _ => True) t (op, pids) t' →
        (t'.Truthful ↔ t.Careful op) ∧
        (∀ pid ∈ pids, ∃ caller i, op.reaper = some caller ∧ (t.procs i).pid = pid ∧
          t.HasSpawned caller (.slot i)) ∧
        ∀ caller pid rows cols, op = .setSize caller pid rows cols → ∀ j,
          t'.procs j ≠ t.procs j → Relation.TransGen t.HasSpawned caller (.slot j) := by
  obtain ⟨hsound, htruthful⟩ : t.Sound ∧ t.Truthful := by
    refine Run.invariant (P := fun t => t.Sound ∧ t.Truthful) (fun t l t' ht hstep => ?_) h
      ⟨sound_boot, fun _ hi => absurd hi Bool.false_ne_true⟩
    have hchange := procStep_change hstep
    exact ⟨hchange.sound ht.1, (hchange.truthful_iff ht.2).mpr hstep.1.2⟩
  refine ⟨htruthful, fun p hp => lt_irrefl _ (hp.pidOf_lt hsound htruthful), ?_⟩
  intro op pids t' hstep
  have hexec : t.exec op = (t', pids) := hstep.2
  refine ⟨(procStep_change hstep).truthful_iff htruthful, fun pid hpid => ?_, ?_⟩
  · rw [← show (t.exec op).2 = pids from congrArg Prod.snd hexec] at hpid
    obtain ⟨caller, i, hreaper, hi, hparent⟩ := mem_reaped hpid
    exact ⟨caller, i, hreaper, hi, hparent.hasSpawned htruthful⟩
  rintro caller pid rows cols rfl j hj
  have ht' : (t.setSize caller pid rows cols).2 = t' := congrArg Prod.fst hexec
  rw [← ht'] at hj
  have hbelow : t.Below caller (.slot j) := (setSize_spec caller pid rows cols).2 j hj
  exact hbelow.lift id fun _ _ hp => hp.hasSpawned htruthful

/-- The kernel starts a process, which starts another, exits and is reaped. -/
def orphanOps : List Op :=
  [.spawn .kernel 0 0 .succeeds, .spawn (.slot 0) 0 0 .succeeds, .exit 0 0, .reap .kernel (-1)]

lemma legal_orphanOps :
    Legal (fun t op => t.Allows op ∧ True) Table.exec Table.boot
      (orphanOps ++ [.spawn (.slot 1) 0 0 .succeeds]) :=
  ⟨⟨trivial, trivial⟩, ⟨⟨by decide, by decide⟩, trivial⟩, ⟨⟨by decide, by decide⟩, trivial⟩,
    ⟨trivial, trivial⟩, ⟨⟨by decide, by decide⟩, trivial⟩, trivial⟩

/-- The orphan starts a process that gets the slot of its parent: each is the parent of the other. -/
theorem not_truthful_of_orphan : ¬ ∀ (ls : List (Op × Reaped)) (t : Table),
    Run (procStep fun _ _ => True) Table.boot ls t → t.Truthful ∧ ∀ p, ¬ t.Below p p := by
  intro hall
  have hcycle := (hall _ _ legal_orphanOps.run).2 (.slot 0)
  refine hcycle (.tail (.single (b := .slot 1) ⟨1, rfl, ?_⟩) ⟨0, rfl, ?_⟩)
  · decide
  · decide

/-- A process starts two children, the first of which exits and is reaped. -/
def reapOps : List Op :=
  [.spawn .kernel 0 0 .succeeds, .spawn (.slot 0) 0 0 .succeeds, .spawn (.slot 0) 0 0 .succeeds,
    .exit 1 0, .reap (.slot 0) (-1)]

theorem run_truthful_reapOps :
    let t := play Table.exec Table.boot reapOps
    t.Truthful ∧ (t.procs 1).used = false ∧ (t.procs 2).used = true ∧ (t.procs 2).spawner = 1 := by
  have hreap : (play Table.exec Table.boot (reapOps.take 4)).Careful (.reap (.slot 0) (-1)) := by
    unfold Table.Careful Table.Childless
    decide
  have hlegal : Legal (fun t op => t.Allows op ∧ t.Careful op) Table.exec Table.boot reapOps :=
    ⟨⟨trivial, fun i hi => by cases hi⟩, ⟨⟨by decide, by decide⟩, fun i hi => by cases hi⟩,
      ⟨⟨by decide, by decide⟩, fun i hi => by cases hi⟩,
      ⟨⟨by decide, by decide⟩, fun i hi => by cases hi⟩, ⟨⟨by decide, by decide⟩, hreap⟩, trivial⟩
  exact ⟨(run_truthful hlegal.run).1, by decide, by decide, by decide⟩

end Wos.Proc
