import Mathlib.Logic.Basic
import Mathlib.Tactic.SplitIfs

/-!
# Runs of a labelled machine

A machine is a relation between a state, a label and a next state; what the outside sees of a step
is in the label. A `Run` is a sequence of steps. Three rules carry every statement about whole runs:
an invariant of the steps is an invariant of the runs, also when it speaks of the labels shown so
far, and a simulation of the steps is a simulation of the runs.
-/

namespace Wos

open List

/-- A sequence of steps, with the labels it shows. -/
inductive Run {S L : Type*} (step : S → L → S → Prop) : S → List L → S → Prop
  | nil (s : S) : Run step s [] s
  | cons {s s' s'' : S} {l : L} {ls : List L} :
      step s l s' → Run step s' ls s'' → Run step s (l :: ls) s''

namespace Run

variable {S A L : Type*} {step : S → L → S → Prop} {astep : A → L → A → Prop}

variable {ls : List L}

lemma trans {s s' s'' : S} {ls' : List L} (h : Run step s ls s') (h' : Run step s' ls' s'') :
    Run step s (ls ++ ls') s'' := by
  induction h with
  | nil => exact h'
  | cons hl _ ih => exact .cons hl (ih h')

/-- What every step preserves holds at the end of every run. -/
lemma invariant {P : S → Prop} (hstep : ∀ s l s', P s → step s l s' → P s') {s s' : S}
    (h : Run step s ls s') (hs : P s) : P s' := by
  induction h with
  | nil => exact hs
  | cons hl _ ih => exact ih (hstep _ _ _ hs hl)

/-- An invariant may speak of the labels shown so far. -/
lemma history {P : S → List L → Prop}
    (hstep : ∀ s ls l s', P s ls → step s l s' → P s' (ls ++ [l])) {s s' : S} (past : List L)
    (h : Run step s ls s') (hs : P s past) : P s' (past ++ ls) := by
  induction h generalizing past with
  | nil =>
    rw [append_nil]
    exact hs
  | cons hl _ ih =>
    rw [append_cons]
    exact ih _ (hstep _ _ _ _ hs hl)

/-- When every step of one machine is matched by a step of another with the same label, every run
is matched by a run with the same labels. -/
lemma simulates {R : S → A → Prop}
    (hstep : ∀ s a l s', R s a → step s l s' → ∃ a', astep a l a' ∧ R s' a') {s s' : S} {a : A}
    (h : Run step s ls s') (hs : R s a) :
    ∃ a', Run astep a ls a' ∧ R s' a' := by
  induction h generalizing a with
  | nil => exact ⟨a, .nil a, hs⟩
  | cons hl _ ih =>
    obtain ⟨a1, ha1, hR⟩ := hstep _ _ _ _ hs hl
    obtain ⟨a', hrun, hR'⟩ := ih hR
    exact ⟨a', .cons ha1 hrun, hR'⟩

end Run

/-- There is a run all of whose labels satisfy `P`. -/
def RunWith {S L : Type*} (step : S → L → S → Prop) (P : L → Prop) (s s' : S) : Prop :=
  ∃ ls, Run step s ls s' ∧ ∀ l ∈ ls, P l

namespace RunWith

variable {S L : Type*} {step : S → L → S → Prop} {P : L → Prop} {s s' s'' : S} {l : L}

lemma refl (s : S) : RunWith step P s s := ⟨[], .nil s, fun _ hl => absurd hl not_mem_nil⟩

lemma single (h : step s l s') (hl : P l) : RunWith step P s s' :=
  ⟨[l], .cons h (.nil _), fun _ hl' => mem_singleton.mp hl' ▸ hl⟩

lemma trans (h : RunWith step P s s') (h' : RunWith step P s' s'') : RunWith step P s s'' := by
  obtain ⟨ls, hrun, hls⟩ := h
  obtain ⟨ls', hrun', hls'⟩ := h'
  exact ⟨ls ++ ls', hrun.trans hrun', fun l hl => (mem_append.mp hl).elim (hls l) (hls' l)⟩

end RunWith

/-! ## The machine of a function -/

section Exec

variable {S I O : Type*} (ok : S → I → Prop) (exec : S → I → S × O)

/-- One step of a function, on an input it may be given, with what it returns. -/
def execStep (s : S) (l : I × O) (s' : S) : Prop := ok s l.1 ∧ exec s l.1 = (s', l.2)

/-- The state after some inputs. -/
def play (s : S) : List I → S
  | [] => s
  | i :: is => play (exec s i).1 is

/-- Some inputs with what is returned for them. -/
def labels (s : S) : List I → List (I × O)
  | [] => []
  | i :: is => (i, (exec s i).2) :: labels (exec s i).1 is

/-- Each input may be given when its turn comes. -/
def Legal (s : S) : List I → Prop
  | [] => True
  | i :: is => ok s i ∧ Legal (exec s i).1 is

instance instDecidableLegal [∀ s i, Decidable (ok s i)] : ∀ s is, Decidable (Legal ok exec s is)
  | _, [] => isTrue trivial
  | s, i :: is =>
    have : Decidable (Legal ok exec (exec s i).1 is) := instDecidableLegal _ is
    inferInstanceAs (Decidable (ok s i ∧ Legal ok exec (exec s i).1 is))

variable {ok exec}

lemma Legal.run {s : S} {is : List I} (h : Legal ok exec s is) :
    Run (execStep ok exec) s (labels exec s is) (play exec s is) := by
  induction is generalizing s with
  | nil => exact .nil s
  | cons i is ih => exact .cons ⟨h.1, rfl⟩ (ih h.2)

end Exec

/-! ## The machine of a function that may fail -/

section Except

variable {S I E : Type*} (ok : S → I → Prop) (exec : S → I → Except E S)

/-- One step of a function on an input it may be given, when it does not fail. -/
def exceptStep (s : S) (i : I) (s' : S) : Prop := ok s i ∧ exec s i = .ok s'

/-- The state after some inputs, if each of them may be given and does not fail. -/
def attempt [∀ s i, Decidable (ok s i)] (s : S) : List I → Option S
  | [] => some s
  | i :: is =>
    if ok s i then
      match exec s i with
      | .error _ => none
      | .ok s => attempt s is
    else none

variable {ok exec}

lemma attempt_run [∀ s i, Decidable (ok s i)] {s s' : S} {is : List I}
    (h : attempt ok exec s is = some s') : Run (exceptStep ok exec) s is s' := by
  induction is generalizing s with
  | nil =>
    obtain rfl := Option.some.inj h
    exact .nil _
  | cons i is ih =>
    rw [attempt] at h
    split_ifs at h with hok
    split at h
    · cases h
    · exact .cons ⟨hok, ‹_›⟩ (ih h)

end Except

/-! ## The machine of a function that may have no result -/

section Option

variable {S I : Type*} (ok : S → I → Prop) (exec : S → I → Option S)

/-- One step of a function on an input it may be given, when it has a result. -/
def someStep (s : S) (i : I) (s' : S) : Prop := ok s i ∧ exec s i = some s'

/-- The state after some inputs, if each of them may be given and has a result. -/
def follow [∀ s i, Decidable (ok s i)] (s : S) : List I → Option S
  | [] => some s
  | i :: is => if ok s i then (exec s i).bind fun s => follow s is else none

variable {ok exec}

lemma follow_run [∀ s i, Decidable (ok s i)] {s s' : S} {is : List I}
    (h : follow ok exec s is = some s') : Run (someStep ok exec) s is s' := by
  induction is generalizing s with
  | nil =>
    obtain rfl := Option.some.inj h
    exact .nil _
  | cons i is ih =>
    rw [follow] at h
    split_ifs at h with hok
    obtain ⟨s1, hexec, h⟩ := Option.bind_eq_some_iff.mp h
    exact .cons ⟨hok, hexec⟩ (ih h)

/-- What the steps of a fold keep holds at its end, if none of them fails. -/
lemma foldlM_keeps {α β : Type*} {P : β → Prop} {f : β → α → Option β} {as : List α}
    (hf : ∀ a ∈ as, ∀ b b', P b → f b a = some b' → P b') {b b' : β} (hb : P b)
    (h : as.foldlM f b = some b') : P b' := by
  induction as generalizing b with
  | nil =>
    cases h
    exact hb
  | cons a as ih =>
    obtain ⟨b1, h1, h⟩ := Option.bind_eq_some_iff.mp h
    exact ih (fun x hx => hf x (mem_cons_of_mem _ hx)) (hf a mem_cons_self b b1 hb h1) h

end Option

end Wos
