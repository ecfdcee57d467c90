import Wos.Proc.Fair

/-!
# Kernel stacks and the processors on them

A processor runs on the kernel stack of one thread. `schedule` marks the thread it leaves as one
that may run, and makes the other one its current thread, before it has left the stack: between this
and `switch_context` the `rsp` of the thread is not saved.

With two processors the lock is free then, and the other processor may pick the thread, or reap it.
With one the timer may hit an idle thread in that window. What `sched_tick` leaves is the thread
that is about to be resumed, so that its `rsp` is overwritten with a place on the idle thread's
stack; when it is resumed there, the idle thread goes on and resumes it once more, with nothing
saved. So nothing is safe as long as there are slots for threads besides the idle ones.

## Main definitions

* `Machine.Sound`: the processors stand on different stacks, none of them freed;
* `Machine.Safe`: a step resumes or frees only what has its `rsp` saved;
* `Machine.Quiet`: what idle threads alone do.

## Main results

* `run_stacks_iff`: every run is sound and safe exactly when there is no slot for another thread, or
  no processor.
-/

namespace Wos.Proc

namespace Machine

variable {P T : Type*}

/-! ## The property -/

/-- The thread a processor is about to resume, and the thread about to be freed, have their `rsp`
saved: the processor that last ran them has left their stack. -/
def Safe (m : Machine P T) : Act P T → Prop
  | .switch p =>
    match (m.cpus p).place with
    | .switching _ next _ => (m.threads next).rspSaved = true
    | _ => True
  | .reap _ t => (m.threads t).rspSaved = true
  | _ => True

/-- The processors stand on different kernel stacks, and on none that was freed. -/
structure Sound (m : Machine P T) : Prop where
  /-- No two processors are on one stack. -/
  apart : ∀ p q, (m.cpus p).frame.stack = (m.cpus q).frame.stack → p = q
  /-- The thread whose stack a processor is on was not taken down. -/
  live (p : P) : (m.threads (m.cpus p).frame.stack).state ≠ none

/-- In every run the processors stand on different stacks, and every step is safe. -/
def KeepsStacks [DecidableEq P] [DecidableEq T] (m₀ : Machine P T) : Prop :=
  ∀ ls m, Run schedStep m₀ ls m → m.Sound ∧ ∀ a, m.Allows a → m.Safe a

/-! ## Idle threads alone -/

/-- There are only idle threads, and each processor is on its own. -/
structure Quiet (m : Machine P T) : Prop where
  idle_inj : ∀ p q, (m.cpus p).idle = (m.cpus q).idle → p = q
  /-- A processor runs its idle thread, on that thread's stack. -/
  own (p : P) : (m.cpus p).current = (m.cpus p).idle ∧ (m.cpus p).frame.stack = (m.cpus p).idle
  /-- It is not in the middle of leaving it. -/
  place (p : P) : (m.cpus p).place = .user ∨ (m.cpus p).place = .kernel
  /-- Neither is what an interrupt hit. -/
  outer (p : P) : ∀ place took, (m.cpus p).frame.outer = some (place, took) → place = .kernel
  /-- Every thread is an idle one that goes on. -/
  threads (t : T) : (m.threads t).isIdle = true ∧ (m.threads t).state ≠ none ∧
    (m.threads t).state ≠ some .zombie

variable {m : Machine P T} {p q : P}

lemma Quiet.sound (h : m.Quiet) : m.Sound where
  apart p q hpq := by
    rw [(h.own p).2, (h.own q).2] at hpq
    exact h.idle_inj p q hpq
  live p := (h.threads _).2.1

/-- Threads may stop and wake. -/
lemma Quiet.rethread (h : m.Quiet) {threads : T → Thread}
    (ht : ∀ t, (threads t).isIdle = (m.threads t).isIdle ∧
      ((threads t).state = (m.threads t).state ∨ (threads t).state = some .ready ∨
        (threads t).state = some .blocked)) : ({ m with threads } : Machine P T).Quiet :=
  { h with
    threads := fun t => by
      obtain ⟨hflag, hstate⟩ := ht t
      refine ⟨hflag.trans (h.threads t).1, ?_⟩
      rcases hstate with heq | heq | heq
      · rw [heq]
        exact (h.threads t).2
      · simp [heq]
      · simp [heq] }

lemma Quiet.wakeIf (h : m.Quiet) (sel : T → Thread → Prop) [∀ t th, Decidable (sel t th)]
    (wakeAt : UInt32 → UInt32) : (m.wakeIf sel wakeAt).Quiet := by
  refine h.rethread fun t => ?_
  split_ifs
  · exact ⟨rfl, .inr (.inl rfl)⟩
  · exact ⟨rfl, .inl rfl⟩

@[simp] lemma klockEnter_cpus (p : P) (took : Bool) : (m.klockEnter p took).cpus = m.cpus := by
  cases took <;> rfl

@[simp] lemma klockLeave_cpus (took : Bool) : (m.klockLeave took).cpus = m.cpus := by
  cases took <;> rfl

lemma Quiet.klockEnter (h : m.Quiet) (p : P) (took : Bool) : (m.klockEnter p took).Quiet := by
  rw [Machine.klockEnter]
  split_ifs
  · exact { h with }
  · exact h

lemma Quiet.klockLeave (h : m.Quiet) (took : Bool) : (m.klockLeave took).Quiet := by
  rw [Machine.klockLeave]
  split_ifs
  · exact { h with }
  · exact h

/-- A processor may move in and out of the kernel. -/
lemma Quiet.setCpu [DecidableEq P] (h : m.Quiet) {f : Cpu T → Cpu T}
    (hown : (f (m.cpus p)).current = (m.cpus p).current ∧ (f (m.cpus p)).idle = (m.cpus p).idle ∧
      (f (m.cpus p)).frame.stack = (m.cpus p).frame.stack)
    (hplace : (f (m.cpus p)).place = .user ∨ (f (m.cpus p)).place = .kernel)
    (houter : ∀ place took, (f (m.cpus p)).frame.outer = some (place, took) → place = .kernel) :
    (m.setCpu p f).Quiet := by
  have hcpus : ∀ q, (m.setCpu p f).cpus q = if q = p then f (m.cpus p) else m.cpus q :=
    fun q => Function.update_apply ..
  have hidle : ∀ q, ((m.setCpu p f).cpus q).idle = (m.cpus q).idle := fun q => by
    rw [hcpus]
    split_ifs with hq
    · rw [hown.2.1, hq]
    · rfl
  refine { h with idle_inj := ?_, own := fun q => ?_, place := fun q => ?_, outer := fun q => ?_ }
  · simpa only [hidle] using h.idle_inj
  · rw [hidle, hcpus]
    split_ifs with hq
    · rw [hown.1, hown.2.2, hq]
      exact h.own p
    · exact h.own q
  · rw [hcpus]
    split_ifs
    · exact hplace
    · exact h.place q
  · rw [hcpus]
    split_ifs
    · exact houter
    · exact h.outer q

variable [DecidableEq T]

/-- `pick_next` takes a thread of the queue that it accepts, or falls back to the idle thread. -/
lemma pickLoop_cases {head : T} (hhead : m.runQueue.head? = some head) (cur : T) (n : ℕ) {t : T}
    (ht : t ∈ m.runQueue) : let next := m.pickLoop p cur head n t
    (m.Accepts cur next ∧ next ∈ m.runQueue) ∨ next = (m.cpus p).idle := by
  induction n generalizing t with
  | zero => exact .inr rfl
  | succ n ih =>
    simp only [pickLoop]
    split_ifs with hready hcur
    · exact .inl ⟨.inl hready, ht⟩
    · exact .inl ⟨.inr hcur, ht⟩
    · rw [next_getD hhead]
      exact ih (hop_mem (List.ne_nil_of_mem ht) t)

lemma pickNext_cases (cur : T) : let next := m.pickNext p cur
    (m.Accepts cur next ∧ next ∈ m.runQueue) ∨ next = (m.cpus p).idle := by
  simp only [pickNext]
  split
  · exact .inr rfl
  · rename_i head hhead
    refine pickLoop_cases hhead cur _ ?_
    rw [next_getD hhead]
    exact hop_mem (by rintro hnil; simp [hnil] at hhead) cur

/-- A thread may stop. -/
lemma Quiet.stop (h : m.Quiet) (t : T) (f : Thread → Thread)
    (hf : ∀ th, (f th).isIdle = th.isIdle ∧ (f th).state = some .blocked) :
    (m.setThread t f).Quiet := by
  refine h.rethread fun u => ?_
  rw [Function.update_apply]
  split_ifs with hu
  · rw [hu]
    exact ⟨(hf _).1, .inr (.inr (hf _).2)⟩
  · exact ⟨rfl, .inl rfl⟩

variable [DecidableEq P]

/-- There is nothing to switch to. -/
lemma Quiet.schedule (h : m.Quiet) (p : P) : (m.schedule p).Quiet := by
  have hnext : m.pickNext p (m.cpus p).current = (m.cpus p).current := by
    rcases pickNext_cases (m := m) (p := p) (m.cpus p).current with
      ⟨⟨hbusy, -⟩ | ⟨hcur, -⟩, -⟩ | hidle
    · rw [(h.threads _).1] at hbusy
      cases hbusy
    · exact hcur
    · rw [hidle, (h.own p).1]
  simp only [Machine.schedule, hnext, if_true]
  rw [if_pos (h.own p).1.symm, ite_self]
  exact h

/-- Idle threads alone stay so. -/
lemma Quiet.exec (h : m.Quiet) {a : Act P T} (ha : m.Allows a) : (m.exec a).Quiet := by
  cases a with
  | enter p =>
    rw [Machine.exec]
    refine (h.klockEnter p _).setCpu ⟨rfl, rfl, rfl⟩ (.inr rfl) fun place took houter => ?_
    simp only [klockEnter_cpus] at houter
    split_ifs at houter with huser
    obtain ⟨rfl, -⟩ := Prod.mk.inj (Option.some.inj houter)
    exact (h.place p).resolve_left huser
  | call p locked =>
    rw [Machine.exec]
    exact (h.klockEnter p _).setCpu ⟨rfl, rfl, rfl⟩ (.inr rfl) (by simp)
  | leave p =>
    rw [Machine.exec]
    cases houter : (m.cpus p).frame.outer with
    | none => refine (h.klockLeave _).setCpu ?_ ?_ ?_ <;> simp [houter]
    | some out =>
      refine (h.klockLeave _).setCpu ?_ ?_ ?_ <;> simp [houter, h.outer p _ _ houter]
  | yield p => exact h.schedule p
  | block p reason deadline =>
    refine Quiet.schedule ?_ p
    exact h.stop _ _ fun _ => ⟨rfl, rfl⟩
  | exit p => exact absurd ha.2 (by simp [(h.threads _).1])
  | wake p reason =>
    rw [Machine.exec, schedWake]
    exact h.wakeIf _ _
  | expire p now =>
    rw [Machine.exec, wakeExpired]
    exact h.wakeIf _ _
  | kill p r =>
    rw [Machine.exec, killThreads]
    exact h.wakeIf _ _
  | spawn p t r => exact absurd ha.2 (h.threads t).2.1
  | reap p t => exact absurd ha.2 (h.threads t).2.2
  | release p =>
    obtain ⟨prev, next, hp⟩ := ha
    rcases h.place p with h' | h' <;> rw [hp] at h' <;> cases h'
  | switch p =>
    obtain ⟨prev, next, held, hp⟩ := ha
    rcases h.place p with h' | h' <;> rw [hp] at h' <;> cases h'
  | reacquire p =>
    obtain ⟨held, hp, -⟩ := ha
    rcases h.place p with h' | h' <;> rw [hp] at h' <;> cases h'

lemma booted_quiet {n : ℕ} (hn : maxThreads ≤ n) : (booted n).Quiet where
  idle_inj _ _ hpq := Sum.inl_injective hpq
  own _ := ⟨rfl, rfl⟩
  place _ := .inl rfl
  outer _ _ _ houter := by cases houter
  threads t := by
    cases t with
    | inl p => simp [booted]
    | inr i => exact absurd i.isLt (by omega)

lemma run_quiet {m₀ : Machine P T} {ls : List (Act P T × Unit)} (h : Run schedStep m₀ ls m)
    (h₀ : m₀.Quiet) : m.Quiet := by
  refine Run.invariant (fun m l m' hm hstep => ?_) h h₀
  rw [← show m.exec l.1 = m' from congrArg Prod.fst hstep.2]
  exact hm.exec hstep.1

omit [DecidableEq T] in
/-- Nothing is resumed, and nothing freed. -/
lemma Quiet.safe (h : m.Quiet) {a : Act P T} (ha : m.Allows a) : m.Safe a := by
  cases a with
  | switch p =>
    obtain ⟨prev, next, held, hp⟩ := ha
    rcases h.place p with h' | h' <;> rw [hp] at h' <;> cases h'
  | reap p t => exact absurd ha.2 (h.threads t).2.2
  | _ => trivial

/-! ## One processor -/

/-- The boot thread makes two threads and waits for one to exit. The timer hits it when it has decided
for the second thread, and switches to the first. That one exits, the second is resumed on the boot
thread's stack, and the boot thread goes on. -/
def nestedTick : List (Act (Fin 1) (Fin 1 ⊕ Fin (maxThreads - 1))) :=
  [.call 0 false, .spawn 0 (.inr ⟨0, by decide⟩) (.slot 0), .spawn 0 (.inr ⟨1, by decide⟩) (.slot 1),
    .block 0 .child none, .enter 0, .yield 0, .release 0, .switch 0, .enter 0, .exit 0, .release 0,
    .switch 0, .reacquire 0, .leave 0, .release 0]

/-- The steps of `acts` are possible on `n` processors. -/
abbrev Possible {n : ℕ} (acts : List (Act (Fin n) (Fin n ⊕ Fin (maxThreads - n)))) : Prop :=
  Legal Machine.Allows (fun m a => (m.exec a, ())) (booted n) acts

/-- The machine after the steps `acts`. -/
abbrev after {n : ℕ} (acts : List (Act (Fin n) (Fin n ⊕ Fin (maxThreads - n)))) :
    Machine (Fin n) (Fin n ⊕ Fin (maxThreads - n)) :=
  play (fun m a => (m.exec a, ())) (booted n) acts

lemma possible_nestedTick : Possible nestedTick := by
  decide

/-- It then resumes the second thread, which is not saved. -/
lemma not_keepsStacks_one : ¬ (booted 1).KeepsStacks := by
  intro hall
  have hplace : ((after nestedTick).cpus 0).place =
      .switching (.inl 0) (.inr ⟨1, by decide⟩) false := by
    decide
  have hsaved : ((after nestedTick).threads (.inr ⟨1, by decide⟩)).rspSaved = false := by
    decide
  have hsafe := (hall _ _ possible_nestedTick.run).2 (.switch 0) ⟨_, _, _, hplace⟩
  simp only [Safe, hplace, hsaved] at hsafe
  cases hsafe

/-! ## Several processors -/

section Window

variable {a : T}

omit [DecidableEq P] in
/-- The only thread that is not idle is picked when it is ready. -/
lemma pickNext_eq_of_ready (hnodup : m.runQueue.Nodup) (hlen : m.runQueue.length ≤ maxThreads)
    (hmem : a ∈ m.runQueue) (hbusy : (m.threads a).isIdle = false)
    (hready : (m.threads a).state = some .ready)
    (honly : ∀ t ∈ m.runQueue, t ≠ a → (m.threads t).isIdle = true)
    (hidle : (m.cpus p).idle ∈ m.runQueue) (cur : T) : m.pickNext p cur = a := by
  have hqueued : m.pickNext p cur ∈ m.runQueue := by
    rcases pickNext_cases (m := m) (p := p) cur with ⟨-, hnext⟩ | hnext
    · exact hnext
    · rw [hnext]
      exact hidle
  by_contra hne
  exact hne (pickNext_of_idle hnodup hlen (honly _ hqueued hne) hmem (.inl ⟨hbusy, hready⟩))

omit [DecidableEq P] in
/-- When it has exited, nothing takes its place but the idle thread. -/
lemma pickNext_eq_idle (hstate : (m.threads a).state = some .zombie)
    (honly : ∀ t ∈ m.runQueue, t ≠ a → (m.threads t).isIdle = true) :
    m.pickNext p a = (m.cpus p).idle := by
  rcases pickNext_cases (m := m) (p := p) a with ⟨⟨hbusy, hready⟩ | ⟨hcur, hrunning⟩, hnext⟩ | hidle
  · by_cases hne : m.pickNext p a = a
    · rw [hne, hstate] at hready
      cases hready
    · rw [honly _ hnext hne] at hbusy
      cases hbusy
  · rw [hcur, hstate] at hrunning
    cases hrunning
  · exact hidle

/-- What `schedule` records. -/
lemma switchTo_eq {prev next : T} (hne : next ≠ prev) : m.switchTo p prev next = { m with
    threads := fun t =>
      if t = next then { m.threads next with state := some .running }
      else if t = prev ∧ (m.threads prev).state = some .running then
        { m.threads prev with state := some .ready }
      else m.threads t
    cpus := Function.update m.cpus p
      { m.cpus p with current := next, place := .decided prev next } } := by
  by_cases hrunning : (m.threads prev).state = some .running
  · simp only [switchTo, hrunning, if_true, setThread, setCpu, Function.update_of_ne hne, and_true]
    congr 1
    funext t
    simp only [Function.update_apply]
  · simp only [switchTo, hrunning, if_false, setThread, setCpu, and_false]
    congr 1
    funext t
    simp only [Function.update_apply]

/-- Thread `a` is the only one that is not idle, and `p` and `q` are two processors. -/
structure Scene (m : Machine P T) (p q : P) (a : T) (k : Option P) (c d : Cpu T) (th : Thread) :
    Prop where
  smp : m.smp = true
  /-- Who holds the kernel lock. -/
  klock : m.klock = k
  /-- What the first processor does. -/
  cpu : m.cpus p = c
  /-- What the second one does. -/
  other : m.cpus q = d
  /-- What is recorded of the thread. -/
  thread : m.threads a = th
  /-- All other threads are idle threads. -/
  idle : ∀ t ∈ m.runQueue, t ≠ a → (m.threads t).isIdle = true
  /-- The idle threads of both processors are queued. -/
  own : c.idle ∈ m.runQueue ∧ d.idle ∈ m.runQueue
  /-- The stack pointer that is saved for the thread. -/
  rsp : m.rsp a = (.user, ⟨a, false, false, none⟩)
  /-- No thread is queued twice. -/
  nodup : m.runQueue.Nodup
  /-- There are no more threads than slots. -/
  length : m.runQueue.length ≤ maxThreads
  /-- The thread is queued. -/
  mem : a ∈ m.runQueue

variable {k : Option P} {c d : Cpu T} {th : Thread} {i j : T} {f f' g : Frame T}

omit [DecidableEq P] [DecidableEq T] in
lemma Scene.swap (h : Scene m p q a k c d th) : Scene m q p a k d c th :=
  { h with cpu := h.other, other := h.cpu, own := h.own.symm }

/-- The idle thread of a processor looks for work. -/
lemma Scene.call (h : Scene m p q a none ⟨i, i, .user, f⟩ d th) (hpq : p ≠ q) :
    m.Allows (.call p true) ∧ Scene (m.exec (.call p true)) p q a (some p)
      ⟨i, i, .kernel, ⟨f.stack, true, true, none⟩⟩ d th := by
  refine ⟨by simp [Allows, h.cpu, KlockFree, h.klock], ?_⟩
  have hexec : m.exec (.call p true) = { m with
      klock := some p
      cpus := Function.update m.cpus p ⟨i, i, .kernel, ⟨f.stack, true, true, none⟩⟩ } := by
    simp [exec, klockEnter, klockTakes, setCpu, h.smp, h.klock, h.cpu]
  rw [hexec]
  exact { h with klock := rfl, cpu := by simp, other := by simp [hpq.symm, h.other] }

/-- It decides for the thread. -/
lemma Scene.yield (h : Scene m p q a k ⟨i, i, .kernel, g⟩ d th) (hpq : p ≠ q) (hia : i ≠ a)
    (hbusy : th.isIdle = false) (hready : th.state = some .ready) :
    m.Allows (.yield p) ∧ Scene (m.exec (.yield p)) p q a k ⟨a, i, .decided i a, g⟩ d
      { th with state := some .running } := by
  refine ⟨by simp [Allows, h.cpu], ?_⟩
  have hpick : m.pickNext p i = a :=
    pickNext_eq_of_ready h.nodup h.length h.mem (h.thread ▸ hbusy) (h.thread ▸ hready) h.idle
      (h.cpu ▸ h.own.1) i
  have hexec : m.exec (.yield p) = m.switchTo p i a := by
    simp [exec, schedule, h.cpu, hpick, hia.symm]
  rw [hexec, switchTo_eq hia.symm]
  refine { h with
    cpu := by simp [h.cpu]
    other := by simp [hpq.symm, h.other]
    thread := by simp [h.thread]
    idle := fun t hmem ht => ?_ }
  simp only [if_neg ht]
  split_ifs with hi
  · exact h.idle i h.own.1 hia
  · exact h.idle t hmem ht

lemma Scene.release {prev next cur : T}
    (h : Scene m p q a (some p) ⟨cur, i, .decided prev next, g⟩ d th) (hpq : p ≠ q) :
    m.Allows (.release p) ∧ Scene (m.exec (.release p)) p q a none
      ⟨cur, i, .switching prev next true, g⟩ d th := by
  refine ⟨by simp [Allows, h.cpu], ?_⟩
  have hexec : m.exec (.release p) = { m with
      klock := none
      cpus := Function.update m.cpus p ⟨cur, i, .switching prev next true, g⟩ } := by
    simp [exec, klockLeave, setCpu, h.klock, h.cpu]
  rw [hexec]
  exact { h with klock := rfl, cpu := by simp, other := by simp [hpq.symm, h.other] }

/-- It goes to the thread. -/
lemma Scene.switch (h : Scene m p q a k ⟨a, i, .switching i a true, g⟩ d th) (hpq : p ≠ q)
    (hia : i ≠ a) :
    m.Allows (.switch p) ∧ Scene (m.exec (.switch p)) p q a k
      ⟨a, i, .user, ⟨a, false, false, none⟩⟩ d { th with rspSaved := false } := by
  refine ⟨by simp [Allows, h.cpu], ?_⟩
  have hexec : m.exec (.switch p) = m.switchContext p i a true := by simp [exec, h.cpu]
  rw [hexec]
  refine { h with
    cpu := by simp [switchContext, setCpu, setThread, h.cpu, h.rsp]
    other := by simp [switchContext, setCpu, setThread, hpq.symm, h.other]
    thread := by simp [switchContext, setCpu, setThread, hia.symm, h.thread]
    idle := fun t hmem ht => ?_
    rsp := by simp [switchContext, hia.symm, h.rsp] }
  simp only [switchContext, setCpu, setThread, Function.update_apply, if_neg ht]
  split_ifs with hi
  · exact h.idle i h.own.1 hia
  · exact h.idle t hmem ht

/-- A system call of the thread. -/
lemma Scene.enter (h : Scene m p q a none ⟨a, i, .user, f⟩ d th) (hpq : p ≠ q) :
    m.Allows (.enter p) ∧ Scene (m.exec (.enter p)) p q a (some p)
      ⟨a, i, .kernel, ⟨f.stack, false, true, none⟩⟩ d th := by
  refine ⟨by simp [Allows, h.cpu, KlockFree, h.klock], ?_⟩
  have hexec : m.exec (.enter p) = { m with
      klock := some p
      cpus := Function.update m.cpus p ⟨a, i, .kernel, ⟨f.stack, false, true, none⟩⟩ } := by
    simp [exec, klockEnter, klockTakes, setCpu, h.smp, h.klock, h.cpu]
  rw [hexec]
  exact { h with klock := rfl, cpu := by simp, other := by simp [hpq.symm, h.other] }

/-- With the thread gone, the idle thread takes over. -/
lemma Scene.schedule (h : Scene m p q a k ⟨a, i, .kernel, g⟩ d th) (hpq : p ≠ q) (hia : i ≠ a)
    (hzombie : th.state = some .zombie) :
    Scene (m.schedule p) p q a k ⟨i, i, .decided a i, g⟩ d th := by
  have hpick : m.pickNext p a = i := by
    rw [pickNext_eq_idle (h.thread ▸ hzombie) h.idle, h.cpu]
  have hswitch : m.schedule p = m.switchTo p a i := by
    simp [Machine.schedule, h.cpu, hpick, hia]
  rw [hswitch, switchTo_eq hia]
  refine { h with
    cpu := by simp [h.cpu]
    other := by simp [hpq.symm, h.other]
    thread := by simp [hia.symm, h.thread, hzombie]
    idle := fun t hmem ht => ?_ }
  simp only [ht, false_and, if_false]
  split_ifs with hi
  · exact h.idle i h.own.1 hia
  · exact h.idle t hmem ht

/-- The thread exits. -/
lemma Scene.exit (h : Scene m p q a k ⟨a, i, .kernel, g⟩ d th) (hpq : p ≠ q) (hia : i ≠ a)
    (hg : g.outer = none) (hbusy : th.isIdle = false) :
    m.Allows (.exit p) ∧ Scene (m.exec (.exit p)) p q a k ⟨i, i, .decided a i, g⟩ d
      { th with state := some .zombie } := by
  refine ⟨by simp [Allows, h.cpu, Cpu.Own, hg, h.thread, hbusy], ?_⟩
  rw [exec, threadExit, h.cpu]
  refine Scene.schedule { h with thread := ?_, idle := fun t hmem ht => ?_ } hpq hia rfl
  · simp [schedWake, wakeIf, setThread, h.thread]
  · simp only [schedWake, wakeIf, setThread, Function.update_of_ne ht]
    split_ifs <;> exact h.idle t hmem ht

/-- Processor `p` goes to the thread, which exits; before `p` has left its stack, `q` may reap it. -/
lemma Scene.window (h : Scene m p q a none ⟨i, i, .user, f⟩ ⟨j, j, .user, f'⟩ th) (hpq : p ≠ q)
    (hia : i ≠ a) (hbusy : th.isIdle = false) (hready : th.state = some .ready) :
    ∃ ls m', Run schedStep m ls m' ∧ m'.Allows (.reap q a) ∧ ¬ m'.Safe (.reap q a) := by
  obtain ⟨ok1, h1⟩ := h.call hpq
  obtain ⟨ok2, h2⟩ := h1.yield hpq hia hbusy hready
  obtain ⟨ok3, h3⟩ := h2.release hpq
  obtain ⟨ok4, h4⟩ := h3.switch hpq hia
  obtain ⟨ok5, h5⟩ := h4.enter hpq
  obtain ⟨ok6, h6⟩ := h5.exit hpq hia rfl hbusy
  obtain ⟨ok7, h7⟩ := h6.release hpq
  obtain ⟨ok8, h8⟩ := h7.swap.call hpq.symm
  have hlegal : Legal Machine.Allows (fun m a => (m.exec a, ())) m [.call p true, .yield p,
      .release p, .switch p, .enter p, .exit p, .release p, .call q true] :=
    ⟨ok1, ok2, ok3, ok4, ok5, ok6, ok7, ok8, trivial⟩
  refine ⟨_, _, hlegal.run, ?_, ?_⟩
  · exact ⟨by simp [play, Cpu.Own, h8.cpu], by simp [play, h8.thread]⟩
  · simp [play, Safe, h8.thread]

end Window

/-- The run queue after boot holds the idle threads. -/
lemma booted_runQueue (n : ℕ) : (booted n).runQueue.Nodup ∧ (booted n).runQueue.length = n ∧
    ∀ t, t ∈ (booted n).runQueue ↔ t.isLeft = true := by
  have hnodup := List.nodup_finRange n
  have hlen : (List.finRange n).length = n := List.length_finRange
  have hmem : ∀ p, p ∈ List.finRange n := List.mem_finRange
  simp only [booted]
  cases hrange : List.finRange n with
  | nil =>
    rw [hrange] at hlen hmem
    refine ⟨List.nodup_nil, hlen, fun t => ?_⟩
    cases t with
    | inl p => exact absurd (hmem p) List.not_mem_nil
    | inr i => simp
  | cons p q =>
    rw [hrange] at hnodup hlen hmem
    refine ⟨List.Nodup.map Sum.inl_injective ?_, ?_, fun t => ?_⟩
    · simpa using hnodup
    · simpa using hlen
    · cases t <;> simp_all

/-- The boot processor `q` makes a thread. -/
def makesThread {n : ℕ} (q : Fin n) (i : Fin (maxThreads - n)) :
    List (Act (Fin n) (Fin n ⊕ Fin (maxThreads - n))) :=
  [.call q false, .spawn q (.inr i) (.slot 0), .leave q]

section Makes

variable {n : ℕ} {p q : Fin n} {i : Fin (maxThreads - n)}

lemma possible_makesThread : Possible (makesThread q i) := by
  simp [Legal, makesThread, Allows, booted, exec, setCpu, klockEnter, Cpu.Own, threadSpawn, schedAdd,
    setThread]

/-- It is the only one besides the idle threads. -/
lemma scene_makesThread (hpq : p ≠ q) (hn : 1 < n) : Scene (after (makesThread q i)) p q (.inr i) none
    ⟨.inl p, .inl p, .user, ⟨.inl p, false, false, none⟩⟩
    ⟨.inl q, .inl q, .user, ⟨.inl q, true, false, none⟩⟩
    ⟨some .ready, .slot 0, .none, 0, false, true⟩ := by
  obtain ⟨hnodup, hlen, hmem⟩ := booted_runQueue n
  obtain ⟨r, queue, hqueue⟩ : ∃ r queue, (booted n).runQueue = r :: queue :=
    List.exists_cons_of_ne_nil fun hnil => by
      rw [hnil, List.length_nil] at hlen
      omega
  have hafter : after (makesThread q i) = { booted n with
      runQueue := r :: .inr i :: queue
      threads := Function.update (booted n).threads (.inr i)
        ⟨some .ready, .slot 0, .none, 0, false, true⟩
      rsp := Function.update (booted n).rsp (.inr i) (.user, ⟨.inr i, false, false, none⟩)
      cpus := Function.update (booted n).cpus q
        ⟨.inl q, .inl q, .user, ⟨.inl q, true, false, none⟩⟩ } := by
    have hcpu : (booted n).cpus q = ⟨.inl q, .inl q, .user, ⟨.inl q, false, false, none⟩⟩ := rfl
    simp [play, makesThread, exec, setCpu, klockEnter, klockLeave, threadSpawn, schedAdd, setThread,
      hqueue, hcpu]
  rw [hqueue] at hnodup hlen hmem
  rw [hafter]
  refine
    { smp := by simp [booted, hn]
      klock := rfl
      cpu := by simp [booted, hpq]
      other := by simp
      thread := by simp
      idle := fun t ht hne => ?_
      own := ?_
      rsp := by simp
      nodup := ?_
      length := ?_
      mem := by simp }
  · have hleft : t.isLeft = true := (hmem t).mp (by simpa [hne, or_comm, or_left_comm] using ht)
    simp [booted, hne, hleft]
  · have hidle : ∀ p : Fin n, Sum.inl p ∈ r :: Sum.inr i :: queue := fun p => by
      simpa using (hmem (.inl p)).mpr rfl
    exact ⟨hidle p, hidle q⟩
  · have hnew : Sum.inr i ∉ r :: queue := fun h => by cases (hmem _).mp h
    simp only [List.mem_cons, not_or] at hnew
    simp only [List.nodup_cons, List.mem_cons, not_or] at hnodup ⊢
    exact ⟨⟨Ne.symm hnew.1, hnodup.1⟩, hnew.2, hnodup.2⟩
  · have := i.isLt
    simp only [List.length_cons] at hlen ⊢
    omega

/-- So another processor can reap it while one is still on its stack. -/
lemma not_keepsStacks_of_two (hn : 1 < n) (hfree : n < maxThreads) : ¬ (booted n).KeepsStacks := by
  intro hall
  have hpq : (⟨1, hn⟩ : Fin n) ≠ ⟨0, by omega⟩ := by simp
  obtain ⟨ls, m, hrun, hallows, hunsafe⟩ :=
    (scene_makesThread (i := ⟨0, by omega⟩) hpq hn).window hpq (by simp) rfl rfl
  exact hunsafe ((hall _ _ (possible_makesThread.run.trans hrun)).2 _ hallows)

end Makes

end Machine

open Machine

/-- In every run no processor stands on the stack of another or on one that was freed, and none resumes
or frees a thread whose `rsp` is not saved, exactly when there is no processor or no slot for a thread
besides the idle ones. -/
theorem run_stacks_iff (n : ℕ) : (booted n).KeepsStacks ↔ n = 0 ∨ maxThreads ≤ n := by
  constructor
  · intro hall
    by_contra! hn
    rcases Nat.lt_or_ge 1 n with htwo | hone
    · exact not_keepsStacks_of_two htwo hn.2 hall
    · obtain rfl : n = 1 := by omega
      exact not_keepsStacks_one hall
  · rintro (rfl | hn) ls m hrun
    · refine ⟨⟨fun p => p.elim0, fun p => p.elim0⟩, fun a _ => ?_⟩
      cases a <;> exact Fin.elim0 ‹Fin 0›
    · have hquiet := run_quiet hrun (booted_quiet hn)
      exact ⟨hquiet.sound, fun _ => hquiet.safe⟩

/-- On one processor the timer lets a thread be resumed that is not saved, and on two a thread is
freed while a processor is on its stack. -/
theorem not_keepsStacks : ¬ (booted 1).KeepsStacks ∧ ¬ (booted 2).KeepsStacks :=
  ⟨not_keepsStacks_one, not_keepsStacks_of_two (by decide) (by decide)⟩

end Wos.Proc
