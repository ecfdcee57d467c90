import Wos.Wcc.Machine

/-!
# Runs of generated code

Code is generated in pieces that stand one after the other in a program. A piece is run from where it
stands; jumps find their label if no label stands twice. What is pushed lies below the stack
pointer, so it leaves the frame above alone.

## Main definitions

* `labelsOf`: the labels of a piece of code;
* `Above`: an address at or above the stack pointer.

## Main results

* `CodeAt.left`, `CodeAt.right`: the pieces of a piece;
* `CodeAt.step`, `CodeAt.jump`: one instruction of a piece;
* `labelAt_eq`: where a label stands;
* `readBytes_writeBytes`, `readBytes_congr`: memory.
-/

namespace Wos.Wcc

open BitVec List

/-! ## Code in place -/

variable {i : Instr}

namespace CodeAt

variable {code part part' : List Instr} {pc : ℕ}

lemma left (h : CodeAt code pc (part ++ part')) : CodeAt code pc part := by
  obtain ⟨before, after, rfl, hlen⟩ := h
  refine ⟨before, part' ++ after, ?_, hlen⟩
  simp

lemma right (h : CodeAt code pc (part ++ part')) : CodeAt code (pc + part.length) part' := by
  obtain ⟨before, after, rfl, rfl⟩ := h
  refine ⟨before ++ part, after, ?_, length_append⟩
  simp

/-- The instruction at a place within the piece. -/
lemma getElem? (h : CodeAt code pc part) {k : ℕ} (hk : k < part.length) :
    code[pc + k]? = part[k]? := by
  obtain ⟨before, after, rfl, rfl⟩ := h
  rw [List.append_assoc, List.getElem?_append_right (Nat.le_add_right _ _),
    Nat.add_sub_cancel_left, List.getElem?_append_left hk]

lemma head (h : CodeAt code pc (i :: part)) : code[pc]? = some i :=
  h.getElem? (k := 0) (Nat.zero_lt_succ _)

lemma tail (h : CodeAt code pc (i :: part)) : CodeAt code (pc + 1) part :=
  right (show CodeAt code pc ([i] ++ part) from h)

end CodeAt

/-- An instruction that does not jump. -/
def Instr.Plain : Instr → Prop
  | .jmp _ | .jcc _ _ => False
  | _ => True

variable {id : ℕ}

section Step

variable {code rest : List Instr} {s t : State}

lemma Steps.single (h : step code s = some t) : Steps code s t :=
  Relation.ReflTransGen.single h

lemma Steps.refl (code : List Instr) (s : State) : Steps code s s := Relation.ReflTransGen.refl

lemma Steps.trans {u : State} (h : Steps code s t) (h' : Steps code t u) : Steps code s u :=
  Relation.ReflTransGen.trans h h'

/-- One instruction that does not jump. -/
theorem CodeAt.step (h : CodeAt code s.pc (i :: rest)) (hplain : i.Plain)
    (hexec : i.exec s = some t) : Steps code s t.next := by
  refine .single ?_
  rw [Wcc.step, h.head]
  cases i with
  | jmp _ | jcc _ _ => exact hplain.elim
  | _ => exact congrArg (Option.map State.next) hexec

theorem CodeAt.jump (h : CodeAt code s.pc (.jmp id :: rest)) :
    Steps code s { s with pc := labelAt code id } := by
  refine .single ?_
  rw [Wcc.step, h.head]

/-- A conditional jump, taken or not. -/
lemma CodeAt.branch {c : Cond} (h : CodeAt code s.pc (.jcc c id :: rest)) :
    Steps code s (if c.holds s.flags then { s with pc := labelAt code id } else s.next) := by
  refine .single ?_
  rw [Wcc.step, h.head]

end Step

/-! ## Labels -/

/-- The labels of a piece of code, in order. -/
def labelsOf (code : List Instr) : List ℕ :=
  code.filterMap fun i => match i with
    | .label id => some id
    | _ => none

lemma labelsOf_append (a b : List Instr) : labelsOf (a ++ b) = labelsOf a ++ labelsOf b :=
  filterMap_append

lemma mem_labelsOf {code : List Instr} : id ∈ labelsOf code ↔ .label id ∈ code := by
  rw [labelsOf, mem_filterMap]
  constructor
  · rintro ⟨i, hi, heq⟩
    cases i with
    | label id' =>
      cases heq
      exact hi
    | _ => cases heq
  · exact fun h => ⟨_, h, rfl⟩

/-- Where no label stands twice, a label stands where it is found. -/
theorem labelAt_eq {code : List Instr} (hnodup : (labelsOf code).Nodup) {pc : ℕ} {rest : List Instr}
    (h : CodeAt code pc (.label id :: rest)) : labelAt code id = pc := by
  obtain ⟨before, after, rfl, rfl⟩ := h
  have hnot : Instr.label id ∉ before := by
    intro hmem
    rw [List.append_assoc, labelsOf_append, List.nodup_append] at hnodup
    refine hnodup.2.2 id (mem_labelsOf.mpr hmem) id (mem_labelsOf.mpr ?_) rfl
    exact mem_append_left _ mem_cons_self
  rw [labelAt, List.append_assoc, List.idxOf_append_of_notMem hnot, List.cons_append,
    idxOf_cons_self, Nat.add_zero]

/-! ## Memory -/

lemma next_address (at_ : BitVec 64) (k : ℕ) :
    at_ + 1 + BitVec.ofNat 64 k = at_ + BitVec.ofNat 64 (k + 1) := by
  rw [add_assoc, Nat.add_comm k 1, ofNat_add]
  rfl

variable {mem : BitVec 64 → BitVec 8} {n : ℕ}

/-- Bytes are read from the addresses they stand at only. -/
theorem readBytes_congr {mem' : BitVec 64 → BitVec 8} {at_ : BitVec 64}
    (h : ∀ k < n, mem' (at_ + BitVec.ofNat 64 k) = mem (at_ + BitVec.ofNat 64 k)) :
    readBytes mem' at_ n = readBytes mem at_ n := by
  induction n generalizing at_ with
  | zero => rfl
  | succ n ih =>
    have hfirst := h 0 (Nat.zero_lt_succ n)
    rw [BitVec.add_zero] at hfirst
    rw [readBytes, readBytes, hfirst, ih fun k hk => ?_]
    have hnext := h (k + 1) (Nat.succ_lt_succ hk)
    rwa [next_address]

/-- The number whose bytes stand there. -/
lemma readBytes_eq {at_ : BitVec 64} {x : ℕ}
    (h : ∀ k < n, (mem (at_ + BitVec.ofNat 64 k)).toNat = x / 256 ^ k % 256) :
    readBytes mem at_ n = x % 256 ^ n := by
  -- the lowest byte, and the bytes of `x / 256` one address further
  induction n generalizing at_ x with
  | zero => rw [readBytes, Nat.pow_zero, Nat.mod_one]
  | succ n ih =>
    have hfirst := h 0 (Nat.zero_lt_succ n)
    rw [BitVec.add_zero, Nat.pow_zero, Nat.div_one] at hfirst
    have hrest : readBytes mem (at_ + 1) n = x / 256 % 256 ^ n := by
      refine ih fun k hk => ?_
      have hnext := h (k + 1) (Nat.succ_lt_succ hk)
      rw [Nat.div_div_eq_div_mul, ← Nat.pow_succ']
      rw [next_address]
      exact hnext
    rw [readBytes, hfirst, hrest, Nat.pow_succ', Nat.mod_mul]

/-- What was written is read again, as far as it was written. -/
theorem readBytes_writeBytes (mem : BitVec 64 → BitVec 8) (at_ v : BitVec 64) (hn : n ≤ 8) :
    readBytes (writeBytes mem at_ v n) at_ n = v.toNat % 256 ^ n := by
  refine readBytes_eq fun k hk => ?_
  have hoff : (at_ + BitVec.ofNat 64 k - at_).toNat = k := by
    rw [add_comm, add_sub_cancel, toNat_ofNat]
    omega
  rw [writeBytes, hoff, if_pos hk, toNat_setWidth, toNat_ushiftRight,
    Nat.shiftRight_eq_div_pow, Nat.pow_mul]

/-- An address at or above the stack pointer. -/
def Above (sp a : BitVec 64) : Prop := sp.toNat ≤ a.toNat

/-- A push below the stack pointer changes nothing at or above it. -/
lemma writeBytes_above {sp a v : BitVec 64} (hroom : 8 ≤ sp.toNat)
    (ha : Above sp a) : writeBytes mem (sp - 8) v 8 a = mem a := by
  rw [Above] at ha
  have hfar : ¬ (a - (sp - 8)).toNat < 8 := by
    have height : (8 : BitVec 64).toNat = 8 := rfl
    rw [toNat_sub, toNat_sub, height]
    omega
  rw [writeBytes, if_neg hfar]

end Wos.Wcc
