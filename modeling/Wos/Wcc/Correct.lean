import Wos.Wcc.Gen
import Wos.Wcc.Run

/-!
# What the code of an expression computes

The code of an expression leaves a number of 64 bits in `rax`. Which one is told by the tree and the
values of the variables alone: `Expr.wide` follows the widths of the operations, and the run of the
code follows it.

## Main definitions

* `Expr.wide`: the number the code makes of an expression;
* `Frame`: the variables stand in memory above the stack pointer;
* `Leaves`: what a piece of code does.

## Main results

* `gen_leaves`: the code of an expression leaves its number in `rax`, and the frame as it was.
-/

namespace Wos.Wcc

open List Option
open BitVec hiding append_assoc cons_append

/-! ## The number of an expression -/

/-- The truth of a proposition as a number. -/
def truth (p : Prop) [Decidable p] : BitVec 64 := if p then 1 else 0

/-- What `cast_rax` makes of a number. -/
def castWide (source target : Ty) (w : BitVec 64) : BitVec 64 :=
  if target = .bool then truth (w ≠ 0)
  else if target.size < 8 then extended target.size target.isUnsigned w
  else if source.size = 4 ∧ source.isUnsigned = false then extended 4 false w
  else w

/-- The quotient and the remainder a division leaves, unless the processor refuses it. -/
def divide {n : ℕ} (unsigned : Bool) (a b : BitVec n) : Option (BitVec n × BitVec n) :=
  if b = 0 then none
  else if unsigned then some (a / b, a % b)
  else if a = BitVec.intMin n ∧ b = -1 then none
  else some (a.sdiv b, a.srem b)

/-- What the instructions of an operator make of numbers of `n` bits; a shift looks at as many bits
of its count as the width needs. -/
def opBits {n : ℕ} (op : BinOp) (unsigned : Bool) (a b : BitVec n) (count : ℕ) :
    Option (BitVec n) :=
  match op with
  | .add => some (a + b)
  | .sub => some (a - b)
  | .mul => some (a * b)
  | .div => (divide unsigned a b).map Prod.fst
  | .mod => (divide unsigned a b).map Prod.snd
  | .bitand => some (a &&& b)
  | .bitor => some (a ||| b)
  | .bitxor => some (a ^^^ b)
  | .shl => some (a <<< (count % n))
  | .shr => some (if unsigned then a >>> (count % n) else a.sshiftRight (count % n))
  | .eq | .ne | .lt | .le => none

/-- What the instructions of an operator make of two numbers in registers. Comparisons look at all
64 bits; the other operators work on 32 unless the left operand has 64, and clear the rest. -/
def opWide (op : BinOp) (operand result : Ty) (a b : BitVec 64) : Option (BitVec 64) :=
  if op.compares then
    some (truth ((conditionOf op operand.isUnsigned).holds (compare a b) = true))
  else if operand.size = 8 then opBits op result.isUnsigned a b b.toNat
  else (opBits op result.isUnsigned (a.setWidth 32) (b.setWidth 32) b.toNat).map (·.setWidth 64)

/-- The number the code makes of an expression. -/
def Expr.wide (env : Var → ℤ) : Expr → Option (BitVec 64)
  | num v _ => some (BitVec.ofInt 64 v)
  | var x => some (BitVec.ofInt 64 (env x))
  | cast t e => (e.wide env).map (castWide e.type t)
  | neg e => (e.wide env).map (-·)
  | bitnot e => (e.wide env).map (~~~·)
  | not e => (e.wide env).map fun w => truth (w = 0)
  | bin op lhs rhs =>
    (rhs.wide env).bind fun r => (lhs.wide env).bind fun l =>
      opWide op lhs.type (Expr.bin op lhs rhs).type l r
  | and lhs rhs =>
    (lhs.wide env).bind fun l =>
      if l = 0 then some 0 else (rhs.wide env).map fun r => truth (r ≠ 0)
  | or lhs rhs =>
    (lhs.wide env).bind fun l =>
      if l = 0 then (rhs.wide env).map fun r => truth (r ≠ 0) else some 1
  | cond c then_ else_ =>
    (c.wide env).bind fun w => if w = 0 then else_.wide env else then_.wide env

/-! ## Variables in the frame -/

/-- The variables of an expression. -/
def Expr.vars : Expr → List Var
  | num _ _ => []
  | var x => [x]
  | cast _ e | neg e | bitnot e | not e => e.vars
  | bin _ lhs rhs | and lhs rhs | or lhs rhs => lhs.vars ++ rhs.vars
  | cond c then_ else_ => c.vars ++ then_.vars ++ else_.vars

/-- How many numbers the code of an expression has on the stack at most. -/
def Expr.depth : Expr → ℕ
  | num _ _ | var _ => 0
  | cast _ e | neg e | bitnot e | not e => e.depth
  | bin _ lhs rhs => max rhs.depth (lhs.depth + 1)
  | and lhs rhs | or lhs rhs => max lhs.depth rhs.depth
  | cond c then_ else_ => max c.depth (max then_.depth else_.depth)

/-- Where a variable stands. -/
def Var.address (x : Var) (s : State) : BitVec 64 :=
  s.reg .rbp + (BitVec.ofInt 32 x.offset).signExtend 64

/-- A variable stands in memory with its value, not below the stack pointer. -/
structure InFrame (env : Var → ℤ) (s : State) (x : Var) : Prop where
  /-- The value is one of the type. -/
  holds : x.type.Holds (env x)
  /-- Its bytes stand at the address. -/
  bytes : readBytes s.mem (x.address s) x.type.size = (env x % 2 ^ x.type.bits).toNat
  /-- They are not below the stack pointer. -/
  above : ∀ k < x.type.size, Above (s.reg .rsp) (x.address s + BitVec.ofNat 64 k)

/-- All variables of an expression stand in memory. -/
def Frame (env : Var → ℤ) (s : State) (xs : List Var) : Prop := ∀ x ∈ xs, InFrame env s x

/-- What holds above the stack pointer of one state is the same in the other, and so is the frame
pointer. -/
structure Kept (s t : State) : Prop where
  rbp_eq : t.reg .rbp = s.reg .rbp
  mem_eq : ∀ a, Above (s.reg .rsp) a → t.mem a = s.mem a

variable {env : Var → ℤ} {s t : State} {xs : List Var}

/-- The frame stays while memory above the stack pointer does, wherever the stack pointer moves to
below. -/
lemma Frame.congr (h : Frame env s xs) (hkept : Kept s t)
    (hsp : (t.reg .rsp).toNat ≤ (s.reg .rsp).toNat) : Frame env t xs := by
  intro x hx
  obtain ⟨hholds, hbytes, habove⟩ := h x hx
  have haddr : x.address t = x.address s := by
    rw [Var.address, Var.address, hkept.rbp_eq]
  refine ⟨hholds, ?_, fun k hk => ?_⟩
  · rw [haddr, readBytes_congr fun k hk => hkept.mem_eq _ (habove k hk), hbytes]
  · rw [haddr]
    exact hsp.trans (habove k hk)

/-- What a piece of code of some length does: it runs to its end and leaves a number in `rax`, the
stack pointer where it was, and memory above it as it was. -/
structure Leaves (code : List Instr) (len : ℕ) (w : BitVec 64) (s t : State) : Prop where
  steps : Steps code s t
  /-- It runs to its end. -/
  pc_eq : t.pc = s.pc + len
  /-- The number is in `rax`. -/
  rax_eq : t.reg .rax = w
  /-- What was pushed was popped. -/
  rsp_eq : t.reg .rsp = s.reg .rsp
  /-- Memory above the stack pointer is as it was. -/
  kept : Kept s t

lemma Kept.refl (s : State) : Kept s s := ⟨rfl, fun _ _ => rfl⟩

variable {u : State}

lemma Kept.trans (h : Kept s t) (h' : Kept t u)
    (hsp : (t.reg .rsp).toNat ≤ (s.reg .rsp).toNat) : Kept s u :=
  ⟨h'.rbp_eq.trans h.rbp_eq, fun a ha => (h'.mem_eq a (hsp.trans ha)).trans (h.mem_eq a ha)⟩

variable {code : List Instr} {w : BitVec 64} {len : ℕ}

lemma Leaves.frame (h : Leaves code len w s t) (hf : Frame env s xs) : Frame env t xs :=
  hf.congr h.kept (by rw [h.rsp_eq])

variable {n : ℕ}

variable {r w' : BitVec 64} {a b : ℤ} {e : Expr}

/-- Code that follows. -/
lemma Leaves.trans {m : ℕ} (h : Leaves code m w s t)
    (h' : Leaves code n w' t u) : Leaves code (m + n) w' s u where
  steps := h.steps.trans h'.steps
  pc_eq := by rw [h'.pc_eq, h.pc_eq, Nat.add_assoc]
  rax_eq := h'.rax_eq
  rsp_eq := h'.rsp_eq.trans h.rsp_eq
  kept := h.kept.trans h'.kept (by rw [h.rsp_eq])

variable {rest : List Instr} {i : Instr}

/-- An instruction that changes `rax` and other registers of no account. -/
lemma CodeAt.leaves (h : CodeAt code s.pc (i :: rest)) (hplain : i.Plain)
    (hexec : i.exec s = some t) (hpc : t.pc = s.pc) (hsp : t.reg .rsp = s.reg .rsp)
    (hbp : t.reg .rbp = s.reg .rbp)
    (hmem : t.mem = s.mem) : Leaves code 1 (t.reg .rax) s t.next where
  steps := h.step hplain hexec
  pc_eq := congrArg (· + 1) hpc
  rax_eq := rfl
  rsp_eq := hsp
  kept := ⟨hbp, fun a _ => congrFun hmem a⟩

/-! ## Numbers in registers -/

variable {v : ℤ}

/-- A number that fits is the same in a wider register, cleared above. -/
lemma setWidth_ofInt (h0 : 0 ≤ v) (h1 : v < 2 ^ n) (hn : n ≤ 64) :
    (BitVec.ofInt n v).setWidth 64 = BitVec.ofInt 64 v := by
  apply eq_of_toNat_eq
  have hle : (2 : ℤ) ^ n ≤ 2 ^ 64 := pow_le_pow_right₀ (by norm_num) hn
  rw [toNat_setWidth, toNat_ofInt, toNat_ofInt]
  push_cast
  rw [Int.emod_eq_of_lt h0 h1, Int.emod_eq_of_lt h0 (by omega)]
  exact Nat.mod_eq_of_lt (by omega)

/-- A signed number that fits is the same in a wider register, with its sign above. -/
lemma signExtend_ofInt (h : v.bmod (2 ^ n) = v) (h' : v.bmod (2 ^ 64) = v)
    (hn : n ≤ 64) : (BitVec.ofInt n v).signExtend 64 = BitVec.ofInt 64 v := by
  apply eq_of_toInt_eq
  rw [toInt_signExtend_of_le hn, toInt_ofInt, toInt_ofInt, h, h']

/-- The extension that goes with a type makes its value of the low bits. -/
lemma extended_eq {t : Ty} (hv : t.Holds v) (hw : w.setWidth t.bits = BitVec.ofInt t.bits v) :
    extended t.size t.isUnsigned w = BitVec.ofInt 64 v := by
  have hlong : ∀ {a b : ℤ}, a ≤ v → v < b → -9223372036854775808 ≤ a → b ≤ 9223372036854775808 →
      v.bmod (2 ^ 64) = v := by
    intro a b ha hb ha' hb'
    exact Int.bmod_eq_of_le (by omega) (by omega)
  have hbits : w.setWidth (8 * t.size) = BitVec.ofInt (8 * t.size) v := hw
  rw [extended, hbits]
  cases t with
  | uchar | ushort | uint | ulong => exact setWidth_ofInt hv.1 hv.2 (by decide)
  | bool =>
    -- `_Bool` is loaded like a signed byte, which zero and one are
    have hchar : Ty.char.Holds v := by
      obtain ⟨h0, h1⟩ := hv
      exact ⟨by omega, by omega⟩
    exact signExtend_ofInt (Int.bmod_eq_of_le hchar.1 hchar.2)
      (hlong hchar.1 hchar.2 (by decide) (by decide)) (by decide)
  | char | short | int | long =>
    exact signExtend_ofInt (Int.bmod_eq_of_le hv.1 hv.2)
      (hlong hv.1 hv.2 (by decide) (by decide)) (by decide)

/-- The low byte that `setcc` writes. -/
lemma extended_setcc (w : BitVec 64) (b : Bool) :
    extended 1 true ((w >>> 8) <<< 8 ||| if b then 1 else 0) = truth (b = true) := by
  rw [truth, extended, if_pos rfl]
  apply eq_of_getLsbD_eq
  intro i hi
  -- a bit of the low byte is not one that was shifted up
  cases b <;> by_cases h : i < 8 <;> simp [hi]

/-- `load_immediate`, in whichever form, loads its constant. -/
lemma loadImmediate_exec (hv : Ty.long.Holds v) (s : State) :
    (loadImmediate v).exec s = some (s.set .rax (BitVec.ofInt 64 v)) := by
  obtain ⟨h0, h1⟩ := hv
  rw [loadImmediate]
  split
  next h => rw [Instr.exec, State.set32, setWidth_ofInt h.1 (by omega) (by decide)]
  next =>
    split
    next h' =>
      rw [Instr.exec, signExtend_ofInt (Int.bmod_eq_of_le (by omega) (by omega))
        (Int.bmod_eq_of_le (by omega) (by omega)) (by decide)]
    next => rfl

lemma loadImmediate_plain (v : ℤ) : (loadImmediate v).Plain := by
  rw [loadImmediate]
  split
  next => trivial
  next => split <;> trivial

/-! ## Pieces of code -/

@[simp] lemma State.set_reg_self (s : State) (r : Reg) (v : BitVec 64) : (s.set r v).reg r = v :=
  if_pos rfl

lemma State.set_reg_of_ne (s : State) {r r' : Reg} (v : BitVec 64) (h : r' ≠ r) :
    (s.set r v).reg r' = s.reg r' :=
  if_neg h

section Pieces

variable {code : List Instr} {s : State}

/-- An instruction whose one effect is a number in `rax`. -/
lemma CodeAt.leaves_set (h : CodeAt code s.pc (i :: rest)) (hplain : i.Plain)
    (hexec : i.exec s = some (s.set .rax w)) :
    Leaves code 1 w s (s.set .rax w).next := by
  have hleaves := h.leaves hplain hexec rfl (s.set_reg_of_ne w (by decide))
    (s.set_reg_of_ne w (by decide)) rfl
  rwa [State.set_reg_self] at hleaves

/-- `setcc` and `movzbl` make the condition a number. -/
lemma setBool_leaves (c : Cond) (h : CodeAt code s.pc (setBool c)) :
    ∃ t, Leaves code 2 (truth (c.holds s.flags = true)) s t := by
  have h1 := h.leaves_set (w := (s.reg .rax >>> 8) <<< 8 ||| if c.holds s.flags then 1 else 0)
    trivial rfl
  generalize hs : (s.set .rax ((s.reg .rax >>> 8) <<< 8 |||
    if c.holds s.flags then 1 else 0)).next = s1 at h1
  have hcode : CodeAt code s1.pc [.movzbl] := by
    rw [h1.pc_eq]
    exact h.tail
  have h2 := hcode.leaves_set trivial rfl
  rw [h1.rax_eq, extended_setcc] at h2
  exact ⟨_, h1.trans h2⟩

variable {f : Flags} {unsigned : Bool} {p : List Instr} {other done : ℕ}

/-- An instruction that only sets the flags. -/
lemma CodeAt.leaves_flags (h : CodeAt code s.pc (i :: rest)) (hplain : i.Plain)
    (hexec : i.exec s = some { s with flags := f }) :
    Leaves code 1 (s.reg .rax) s (State.next { s with flags := f }) :=
  h.leaves hplain hexec rfl rfl rfl rfl

/-- A comparison, made a number. -/
lemma compared_leaves (c : Cond) (h : CodeAt code s.pc (i :: setBool c)) (hplain : i.Plain)
    (hexec : i.exec s = some { s with flags := f }) :
    ∃ t, Leaves code 3 (truth (c.holds f = true)) s t := by
  have h1 := h.leaves_flags hplain hexec
  obtain ⟨t, h2⟩ := setBool_leaves (s := State.next { s with flags := f }) c h.tail
  exact ⟨t, h1.trans h2⟩

lemma truth_congr {p q : Prop} [Decidable p] [Decidable q] (h : p ↔ q) : truth p = truth q :=
  if_congr h rfl rfl

lemma holds_e_compare (a b : BitVec 64) : Cond.e.holds (compare a b) = true ↔ a = b :=
  decide_eq_true_iff

lemma holds_ne_compare (a b : BitVec 64) : Cond.ne.holds (compare a b) = true ↔ a ≠ b := by
  rw [Cond.holds, compare, Bool.not_eq_true', decide_eq_false_iff_not]

/-- `cast_rax`. -/
lemma castRax_leaves (source target : Ty) (h : CodeAt code s.pc (castRax source target)) :
    ∃ t, Leaves code (castRax source target).length (castWide source target (s.reg .rax)) s t := by
  rw [castRax] at h ⊢
  rw [castWide]
  split at h
  next hbool =>
    rw [if_pos hbool, if_pos hbool]
    obtain ⟨t, ht⟩ := compared_leaves .ne h trivial rfl
    rw [truth_congr (holds_ne_compare _ _)] at ht
    exact ⟨t, ht⟩
  next hbool =>
    rw [if_neg hbool, if_neg hbool]
    split at h
    next hsmall =>
      rw [if_pos hsmall, if_pos hsmall]
      exact ⟨_, h.leaves_set trivial rfl⟩
    next hsmall =>
      rw [if_neg hsmall, if_neg hsmall]
      split at h
      next hint =>
        rw [if_pos hint, if_pos hint]
        exact ⟨_, h.leaves_set trivial rfl⟩
      next hint =>
        rw [if_neg hint, if_neg hint]
        exact ⟨s, .refl code s, rfl, rfl, rfl, .refl s⟩

/-- What both halves of a division leave in registers of 64 bits. -/
def divideWide (unsigned long : Bool) (a b : BitVec 64) : Option (BitVec 64 × BitVec 64) :=
  if long then divide unsigned a b
  else (divide unsigned (a.setWidth 32) (b.setWidth 32)).map fun p =>
    (p.1.setWidth 64, p.2.setWidth 64)

/-- The instructions of a division, without the move of the remainder. -/
def divisionCode (unsigned long : Bool) : List Instr :=
  if unsigned then [.clearDx, .div long] else [.signDx long, .idiv long]

variable {long : Bool}

/-- The first instruction of a division prepares `rdx`. -/
lemma divisionCode_leaves {q : BitVec 64}
    (h : CodeAt code s.pc (divisionCode unsigned long ++ rest))
    (hdiv : divideWide unsigned long (s.reg .rax) (s.reg .rdi) = some (q, r)) :
    ∃ t, Leaves code 2 q s t ∧ t.reg .rdx = r := by
  -- `rdx` set to some number, then the division on the state with it
  have hrun : ∀ {i j : Instr} (x : BitVec 64), CodeAt code s.pc (i :: j :: rest) → i.Plain →
      j.Plain → i.exec s = some (s.set .rdx x) →
      j.exec (s.set .rdx x).next = some (((s.set .rdx x).next.set .rax q).set .rdx r) →
      ∃ t, Leaves code 2 q s t ∧ t.reg .rdx = r := by
    intro i j x hcode hi hj hexec hexec'
    have h1 := hcode.leaves hi hexec rfl (s.set_reg_of_ne x (by decide))
      (s.set_reg_of_ne x (by decide)) rfl
    have h2 := CodeAt.leaves (s := (s.set .rdx x).next) hcode.tail hj hexec' rfl rfl rfl rfl
    exact ⟨_, h1.trans h2, rfl⟩
  rw [divideWide] at hdiv
  -- whether the processor refuses is what `divide` asks too, once `rdx` is prepared
  cases unsigned <;> cases long <;>
    simp only [divisionCode, Bool.false_eq_true, if_false, if_true, cons_append,
      nil_append, divide] at h hdiv
  · obtain ⟨p, hsome, heq⟩ := map_eq_some_iff.mp hdiv
    split_ifs at hsome with hzero hmin
    cases hsome
    cases heq
    refine hrun _ h trivial trivial rfl (if_neg ?_)
    rintro (hb | hdx | hb)
    · exact hzero hb
    · exact hdx (setWidth_setWidth_of_le _ (by decide) |>.trans (setWidth_eq _))
    · exact hmin hb
  · split_ifs at hdiv with hzero hmin
    cases hdiv
    refine hrun _ h trivial trivial rfl (if_neg ?_)
    rintro (hb | hdx | hb)
    · exact hzero hb
    · exact hdx rfl
    · exact hmin hb
  · obtain ⟨p, hsome, heq⟩ := map_eq_some_iff.mp hdiv
    split_ifs at hsome with hzero
    cases hsome
    cases heq
    refine hrun _ h trivial trivial rfl (if_neg ?_)
    rintro (hb | hdx)
    · exact hzero hb
    · exact hdx rfl
  · split_ifs at hdiv with hzero
    cases hdiv
    refine hrun _ h trivial trivial rfl (if_neg ?_)
    rintro (hb | hdx)
    · exact hzero hb
    · exact hdx rfl

/-- Two-operand arithmetic. -/
lemma alu_leaves {op : Alu} (h : CodeAt code s.pc [.alu op long])
    (hw : (if long then op.apply (s.reg .rax) (s.reg .rdi)
      else (op.apply ((s.reg .rax).setWidth 32) ((s.reg .rdi).setWidth 32)).setWidth 64) = w) :
    ∃ t, Leaves code 1 w s t := by
  subst hw
  cases long with
  | false | true => exact ⟨_, h.leaves_set trivial rfl⟩

/-- A shift, with its count moved to `rcx` first. -/
lemma shift_leaves {op : Shift} (h : CodeAt code s.pc [.mov .rcx .rdi, .shift op long])
    (hw : (if long then op.apply (s.reg .rax) ((s.reg .rdi).toNat % 64)
      else (op.apply ((s.reg .rax).setWidth 32) ((s.reg .rdi).toNat % 32)).setWidth 64) = w) :
    ∃ t, Leaves code 2 w s t := by
  subst hw
  have h1 := h.leaves trivial rfl rfl (s.set_reg_of_ne (s.reg .rdi) (by decide))
    (s.set_reg_of_ne (s.reg .rdi) (by decide)) rfl
  cases long with
  | false | true =>
    exact ⟨_, h1.trans (CodeAt.leaves_set (s := (s.set .rcx (s.reg .rdi)).next) h.tail trivial rfl)⟩

/-- A division whose quotient or remainder is wanted, on 64 bits or on 32. -/
lemma exists_divideWide {size : ℕ} {a b : BitVec 64}
    (pick : ∀ {n : ℕ}, BitVec n × BitVec n → BitVec n)
    (hpick : ∀ p : BitVec 32 × BitVec 32,
      (pick p).setWidth 64 = pick (p.1.setWidth 64, p.2.setWidth 64))
    (hw : (if size = 8 then (divide unsigned a b).map pick
      else ((divide unsigned (a.setWidth 32) (b.setWidth 32)).map pick).map (·.setWidth 64)) =
        some w) :
    ∃ p, divideWide unsigned (decide (size = 8)) a b = some p ∧ pick p = w := by
  by_cases hlong : size = 8
  · rw [if_pos hlong] at hw
    obtain ⟨p, hp, hw⟩ := map_eq_some_iff.mp hw
    exact ⟨p, by rw [divideWide, if_pos (decide_eq_true hlong)]; exact hp, hw⟩
  · rw [if_neg hlong, Option.map_map] at hw
    obtain ⟨p, hp, hw⟩ := map_eq_some_iff.mp hw
    refine ⟨(p.1.setWidth 64, p.2.setWidth 64), ?_, (hpick p).symm.trans hw⟩
    rw [divideWide, if_neg (by simpa using hlong), hp, map_some]

/-- The instructions of an operator, once both sides are in registers. -/
lemma opCode_leaves {op : BinOp} {operand result : Ty}
    (h : CodeAt code s.pc (opCode op operand result))
    (hop : opWide op operand result (s.reg .rax) (s.reg .rdi) = some w) :
    ∃ t, Leaves code (opCode op operand result).length w s t := by
  -- the outcome of an operator that works on 64 bits or on 32
  have hwidth : op.compares = false →
      (if operand.size = 8 then opBits op result.isUnsigned (s.reg .rax) (s.reg .rdi)
          (s.reg .rdi).toNat
        else (opBits op result.isUnsigned ((s.reg .rax).setWidth 32) ((s.reg .rdi).setWidth 32)
          (s.reg .rdi).toNat).map (·.setWidth 64)) = some w := by
    intro hcmp
    rwa [opWide, hcmp, if_neg Bool.false_ne_true] at hop
  have hpick : ∀ {x : BitVec 64} {y : BitVec 32},
      (if operand.size = 8 then some x else (some y).map (·.setWidth 64)) = some w →
      (if decide (operand.size = 8) = true then x else y.setWidth 64) = w := by
    intro x y hw
    by_cases hlong : operand.size = 8
    · rw [if_pos hlong] at hw
      rw [if_pos (decide_eq_true hlong)]
      exact some.inj hw
    · rw [if_neg hlong] at hw
      rw [if_neg (by simpa using hlong)]
      exact some.inj hw
  cases op with
  | add | sub | mul | bitand | bitor | bitxor => exact alu_leaves h (hpick (hwidth rfl))
  | shl => exact shift_leaves h (hpick (hwidth rfl))
  | shr =>
    have hw := hwidth rfl
    refine shift_leaves h ?_
    cases hsign : result.isUnsigned <;> rw [hsign] at hw <;> exact hpick hw
  | div =>
    obtain ⟨⟨q, r⟩, hdiv, rfl⟩ := exists_divideWide Prod.fst (fun _ => rfl) (hwidth rfl)
    have hcode : CodeAt code s.pc (divisionCode result.isUnsigned (decide (operand.size = 8)) ++ []) := by
      rw [append_nil]
      exact h
    obtain ⟨t, ht, -⟩ := divisionCode_leaves hcode hdiv
    have hlen : (opCode .div operand result).length = 2 := by
      simp only [opCode]
      split <;> rfl
    rw [hlen]
    exact ⟨t, ht⟩
  | mod =>
    obtain ⟨⟨q, r⟩, hdiv, rfl⟩ := exists_divideWide Prod.snd (fun _ => rfl) (hwidth rfl)
    obtain ⟨t, ht, hdx⟩ := divisionCode_leaves h hdiv
    have hlen : (divisionCode result.isUnsigned (decide (operand.size = 8))).length = 2 := by
      rw [divisionCode]
      split <;> rfl
    -- the remainder is moved over
    have hmove : CodeAt code t.pc [.mov .rax .rdx] := by
      rw [ht.pc_eq, ← hlen]
      exact h.right
    have hall := ht.trans (hmove.leaves_set trivial rfl)
    rw [hdx] at hall
    have hlen' : (opCode .mod operand result).length = 3 := by
      simp only [opCode]
      split <;> rfl
    rw [hlen']
    exact ⟨_, hall⟩
  | eq | ne | lt | le =>
    obtain ⟨t, ht⟩ := compared_leaves _ h trivial rfl
    cases hop
    exact ⟨t, ht⟩

variable {l : BitVec 64}

/-- What is pushed before a piece of code is popped after it. The other registers are as the piece
leaves them. -/
lemma push_pop {r : Reg} {Q : State → Prop} (hroom : 8 ≤ (s.reg .rsp).toNat)
    (h : CodeAt code s.pc (.push :: p ++ .pop r :: rest))
    (hpart : ∀ s' : State, s'.pc = s.pc + 1 → Kept s s' →
      (s'.reg .rsp).toNat + 8 = (s.reg .rsp).toNat → ∃ t, Leaves code p.length l s' t ∧ Q t) :
    ∃ t, Q t ∧ t.reg .rax = l ∧ t.pc + 1 = s.pc + (p.length + 2) ∧ Kept s t ∧
      Steps code s ((t.set .rsp (s.reg .rsp)).set r (s.reg .rax)).next := by
  have height : (8 : BitVec 64).toNat = 8 := rfl
  have hless : (s.reg .rsp - 8).toNat = (s.reg .rsp).toNat - 8 := by
    rw [toNat_sub, height]
    omega
  -- the state after the push
  obtain ⟨s', hpush, hsp', hmem', hpc', hbp'⟩ : ∃ s', Steps code s s' ∧
      s'.reg .rsp = s.reg .rsp - 8 ∧ s'.mem = writeBytes s.mem (s.reg .rsp - 8) (s.reg .rax) 8 ∧
      s'.pc = s.pc + 1 ∧ s'.reg .rbp = s.reg .rbp :=
    ⟨_, CodeAt.step h trivial rfl, rfl, rfl, rfl, rfl⟩
  have hkept : Kept s s' := by
    refine ⟨hbp', fun a ha => ?_⟩
    rw [hmem']
    exact writeBytes_above hroom ha
  obtain ⟨t, ht, hQ⟩ := hpart s' hpc' hkept (by rw [hsp', hless]; omega)
  have hcode : CodeAt code t.pc (.pop r :: rest) := by
    rw [ht.pc_eq, hpc', Nat.add_assoc, Nat.add_comm 1]
    exact CodeAt.right h
  have hpop := hcode.step (t := (t.set .rsp (t.reg .rsp + 8)).set r
    (BitVec.ofNat 64 (readBytes t.mem (t.reg .rsp) 8))) trivial rfl
  -- the number is still where it was pushed
  have hread : BitVec.ofNat 64 (readBytes t.mem (t.reg .rsp) 8) = s.reg .rax := by
    have hsame : readBytes t.mem (t.reg .rsp) 8 = readBytes s'.mem (t.reg .rsp) 8 := by
      refine readBytes_congr fun k hk => ht.kept.mem_eq _ ?_
      rw [Above, ht.rsp_eq, hsp', toNat_add, hless, toNat_ofNat]
      omega
    rw [hsame, ht.rsp_eq, hsp', hmem', readBytes_writeBytes _ _ _ le_rfl]
    exact eq_of_toNat_eq (by rw [toNat_ofNat]; omega)
  rw [hread, ht.rsp_eq, hsp', sub_add_cancel] at hpop
  refine ⟨t, hQ, ht.rax_eq, ?_, ⟨?_, fun a ha => ?_⟩, (hpush.trans ht.steps).trans hpop⟩
  · rw [ht.pc_eq, hpc']
    omega
  · exact ht.kept.rbp_eq.trans hkept.rbp_eq
  refine (ht.kept.mem_eq a ?_).trans (hkept.mem_eq a ha)
  rw [Above] at ha ⊢
  rw [hsp', hless]
  omega

/-- What is pushed before the left operand is the right one after it. -/
lemma pushed_leaves (hroom : 8 ≤ (s.reg .rsp).toNat)
    (h : CodeAt code s.pc (.push :: p ++ .pop .rdi :: rest))
    (hpart : ∀ s' : State, s'.pc = s.pc + 1 → Kept s s' →
      (s'.reg .rsp).toNat + 8 = (s.reg .rsp).toNat → ∃ t, Leaves code p.length l s' t) :
    ∃ t, Leaves code (p.length + 2) l s t ∧ t.reg .rdi = s.reg .rax := by
  obtain ⟨t, -, hrax, hpc, hkept, hsteps⟩ := push_pop (Q := fun _ => True) hroom h
    fun s' hpc hk hsp => (hpart s' hpc hk hsp).imp fun _ ht => ⟨ht, trivial⟩
  refine ⟨_, ⟨hsteps, hpc, hrax, rfl, ⟨hkept.rbp_eq, hkept.mem_eq⟩⟩, ?_⟩
  exact (t.set .rsp (s.reg .rsp)).set_reg_self .rdi (s.reg .rax)

variable {c : Cond} {id : ℕ}

/-- A label does nothing. -/
lemma label_leaves (h : CodeAt code s.pc (.label id :: rest)) :
    Leaves code 1 (s.reg .rax) s s.next :=
  h.leaves trivial rfl rfl rfl rfl rfl

lemma loadImmediate_leaves (hv : Ty.long.Holds v)
    (h : CodeAt code s.pc (loadImmediate v :: rest)) :
    Leaves code 1 (BitVec.ofInt 64 v) s (s.set .rax (BitVec.ofInt 64 v)).next :=
  h.leaves_set (loadImmediate_plain v) (loadImmediate_exec hv s)

/-- A run to a place in the program, with a number in `rax` and the frame as it was. -/
structure Reaches (code : List Instr) (pc : ℕ) (w : BitVec 64) (s t : State) : Prop where
  steps : Steps code s t
  pc_eq : t.pc = pc
  rax_eq : t.reg .rax = w
  rsp_eq : t.reg .rsp = s.reg .rsp
  kept : Kept s t

lemma Leaves.reaches (h : Leaves code len w s t) : Reaches code (s.pc + len) w s t :=
  { h with }

variable {pc : ℕ}

lemma Reaches.trans {pc' : ℕ} (h : Reaches code pc w s t)
    (h' : Reaches code pc' w' t u) : Reaches code pc' w' s u where
  __ := h'
  steps := h.steps.trans h'.steps
  rsp_eq := h'.rsp_eq.trans h.rsp_eq
  kept := h.kept.trans h'.kept (by rw [h.rsp_eq])

lemma Reaches.frame (h : Reaches code pc w s t) (hf : Frame env s xs) : Frame env t xs :=
  hf.congr h.kept (by rw [h.rsp_eq])

lemma Reaches.leaves (h : Reaches code pc w s t)
    (hpc : pc = s.pc + len) : Leaves code len w s t :=
  { h with pc_eq := h.pc_eq.trans hpc }

/-- A test followed by a conditional jump: where it goes on, with `rax` as it was. -/
lemma test_reaches (h : CodeAt code s.pc (.test :: .jcc c id :: rest)) :
    ∃ t, Reaches code (if c.holds (compare (s.reg .rax) 0) then labelAt code id else s.pc + 2)
      (s.reg .rax) s t := by
  have h1 := h.leaves_flags (f := compare (s.reg .rax) 0) trivial rfl
  have h2 := CodeAt.branch (s := State.next { s with flags := compare (s.reg .rax) 0 }) h.tail
  by_cases hc : c.holds (compare (s.reg .rax) 0) = true
  · rw [if_pos (by exact hc)] at h2
    exact ⟨_, h1.steps.trans h2, (if_pos hc).symm, rfl, rfl, ⟨rfl, fun _ _ => rfl⟩⟩
  · rw [if_neg (by exact hc)] at h2
    exact ⟨_, h1.steps.trans h2, (if_neg hc).symm, rfl, rfl, ⟨rfl, fun _ _ => rfl⟩⟩

section

variable (hnodup : (labelsOf code).Nodup)

include hnodup

/-- A jump, past its label. -/
lemma jump_reaches {p : ℕ} {rest' : List Instr} (h : CodeAt code s.pc (.jmp id :: rest))
    (hlabel : CodeAt code p (.label id :: rest')) : ∃ t, Reaches code (p + 1) (s.reg .rax) s t := by
  obtain rfl : labelAt code id = p := labelAt_eq hnodup hlabel
  have hjump : Reaches code _ (s.reg .rax) s { s with pc := labelAt code id } :=
    ⟨h.jump, rfl, rfl, rfl, ⟨rfl, fun _ _ => rfl⟩⟩
  exact ⟨_, hjump.trans (label_leaves (s := { s with pc := labelAt code id }) hlabel).reaches⟩

/-- The end of a short-circuit operator: one constant on falling through, another one on a jump to
the label. -/
lemma outcome_reaches {p : ℕ} (ha : Ty.long.Holds a) (hb : Ty.long.Holds b)
    (h : CodeAt code p [loadImmediate a, .jmp done, .label other, loadImmediate b, .label done]) :
    (s.pc = p → ∃ t, Reaches code (p + 5) (BitVec.ofInt 64 a) s t) ∧
      (s.pc = labelAt code other → ∃ t, Reaches code (p + 5) (BitVec.ofInt 64 b) s t) := by
  have hother : labelAt code other = p + 2 := labelAt_eq hnodup h.tail.tail
  refine ⟨fun hpc => ?_, fun hpc => ?_⟩
  · have h1 := loadImmediate_leaves (s := s) ha (by rw [hpc]; exact h)
    generalize (s.set .rax (BitVec.ofInt 64 a)).next = s1 at h1
    have hpc1 : s1.pc = p + 1 := by rw [h1.pc_eq, hpc]
    obtain ⟨t, h2⟩ := jump_reaches (s := s1) hnodup (by rw [hpc1]; exact h.tail)
      h.tail.tail.tail.tail
    rw [h1.rax_eq] at h2
    exact ⟨t, h1.reaches.trans h2⟩
  · have h1 := label_leaves (s := s) (by rw [hpc, hother]; exact h.tail.tail)
    have hpc1 : s.next.pc = p + 3 := by
      rw [h1.pc_eq, hpc, hother]
    have h2 := loadImmediate_leaves (s := s.next) hb (by rw [hpc1]; exact h.tail.tail.tail)
    generalize (s.next.set .rax (BitVec.ofInt 64 b)).next = s2 at h2
    have hpc2 : s2.pc = p + 4 := by rw [h2.pc_eq, hpc1]
    have h3 := label_leaves (s := s2) (by rw [hpc2]; exact h.tail.tail.tail.tail)
    have h4 := (h1.reaches.trans h2.reaches).trans h3.reaches
    rw [hpc2, h2.rax_eq] at h4
    exact ⟨_, h4⟩

/-- `&&` and `||`: both sides jump to the same label, and the right one is run only if the left one
does not. -/
lemma shortcut_leaves (ha : Ty.long.Holds a) (hb : Ty.long.Holds b) {left right : List Instr}
    (h : CodeAt code s.pc (left ++ .test :: .jcc c other :: (right ++ .test :: .jcc c other ::
      [loadImmediate a, .jmp done, .label other, loadImmediate b, .label done])))
    (hleft : ∃ t, Leaves code left.length l s t)
    (hright : ¬ c.holds (compare l 0) = true → ∀ s' : State, s'.pc = s.pc + left.length + 2 →
      s'.reg .rsp = s.reg .rsp → Kept s s' → ∃ t, Leaves code right.length r s' t) :
    ∃ t, Leaves code (left.length + 2 + right.length + 7)
      (if c.holds (compare l 0) = true ∨ c.holds (compare r 0) = true then BitVec.ofInt 64 b
        else BitVec.ofInt 64 a) s t := by
  obtain ⟨t1, h1⟩ := hleft
  have hcode1 := h.right
  have hcode2 := hcode1.tail.tail
  have hcode3 := hcode2.right
  have hend := hcode3.tail.tail
  obtain ⟨t2, h2⟩ := test_reaches (s := t1) (by rw [h1.pc_eq]; exact hcode1)
  rw [h1.rax_eq] at h2
  have h12 := h1.reaches.trans h2
  by_cases hl : c.holds (compare l 0) = true
  · -- the left side decides
    rw [if_pos hl] at h12
    rw [if_pos (Or.inl hl)]
    obtain ⟨t3, h3⟩ := (outcome_reaches (s := t2) hnodup ha hb hend).2 h12.pc_eq
    exact ⟨t3, (h12.trans h3).leaves (by omega)⟩
  · rw [if_neg hl, h1.pc_eq] at h12
    obtain ⟨t3, h3⟩ := hright hl t2 h12.pc_eq h12.rsp_eq h12.kept
    have hpc3 : t3.pc = s.pc + left.length + 1 + 1 + right.length := by
      rw [h3.pc_eq, h12.pc_eq]
    obtain ⟨t4, h4⟩ := test_reaches (s := t3) (by rw [hpc3]; exact hcode3)
    rw [h3.rax_eq] at h4
    have h14 := (h12.trans h3.reaches).trans h4
    by_cases hr : c.holds (compare r 0) = true
    · rw [if_pos hr] at h14
      rw [if_pos (Or.inr hr)]
      obtain ⟨t5, h5⟩ := (outcome_reaches (s := t4) hnodup ha hb hend).2 h14.pc_eq
      exact ⟨t5, (h14.trans h5).leaves (by omega)⟩
    · rw [if_neg hr, hpc3] at h14
      rw [if_neg (not_or.mpr ⟨hl, hr⟩)]
      obtain ⟨t5, h5⟩ := (outcome_reaches (s := t4) hnodup ha hb hend).1 h14.pc_eq
      exact ⟨t5, (h14.trans h5).leaves (by omega)⟩

end

/-- A variable is loaded with the extension of its type. -/
lemma var_leaves {x : Var} (hx : InFrame env s x)
    (h : CodeAt code s.pc [.leaFrame .rax (BitVec.ofInt 32 x.offset),
      .load x.type.size x.type.isUnsigned]) :
    ∃ t, Leaves code 2 (BitVec.ofInt 64 (env x)) s t := by
  have h1 := h.leaves_set (w := x.address s) trivial rfl
  generalize hs : (s.set .rax (x.address s)).next = s1 at h1
  have hmem : s1.mem = s.mem := by
    rw [← hs]
    rfl
  have hcode : CodeAt code s1.pc [.load x.type.size x.type.isUnsigned] := by
    rw [h1.pc_eq]
    exact h.tail
  have h2 := hcode.leaves_set trivial rfl
  have hval : extended x.type.size x.type.isUnsigned
      (BitVec.ofNat 64 (readBytes s1.mem (s1.reg .rax) x.type.size)) = BitVec.ofInt 64 (env x) := by
    rw [hmem, h1.rax_eq, hx.bytes]
    refine extended_eq hx.holds (eq_of_toNat_eq ?_)
    have hle : x.type.bits ≤ 64 := by cases x.type <;> decide
    have hpow : 2 ^ x.type.bits ∣ 2 ^ 64 := Nat.pow_dvd_pow 2 hle
    rw [toNat_setWidth, toNat_ofNat, toNat_ofInt, Nat.mod_mod_of_dvd _ hpow]
    have hpos : (0 : ℤ) < 2 ^ x.type.bits := by positivity
    have hlt := Int.emod_lt_of_pos (env x) hpos
    have hnonneg := Int.emod_nonneg (env x) hpos.ne'
    push_cast
    refine Nat.mod_eq_of_lt ?_
    zify
    rw [Int.toNat_of_nonneg hnonneg]
    exact hlt
  rw [hval] at h2
  exact ⟨_, h1.trans h2⟩

end Pieces

/-- Every constant is a `long`. -/
def Expr.Longs : Expr → Prop
  | num v _ => Ty.long.Holds v
  | var _ => True
  | cast _ e | neg e | bitnot e | not e => e.Longs
  | bin _ lhs rhs | and lhs rhs | or lhs rhs => lhs.Longs ∧ rhs.Longs
  | cond c then_ else_ => c.Longs ∧ then_.Longs ∧ else_.Longs

/-- What `gen_leaves` says of an expression. -/
def Computes (code : List Instr) (env : Var → ℤ) (e : Expr) : Prop :=
  ∀ {n : ℕ} {s : State} {w : BitVec 64}, e.Longs → CodeAt code s.pc (gen e n).1 →
    Frame env s e.vars → 8 * e.depth ≤ (s.reg .rsp).toNat → e.wide env = some w →
    ∃ t, Leaves code (gen e n).1.length w s t

/-- The code of an operand, then what makes of its number that of the expression. -/
lemma Computes.unary {last : List Instr} {f : BitVec 64 → BitVec 64} (ih : Computes code env e)
    (hlongs : e.Longs) (h : CodeAt code s.pc ((gen e n).1 ++ last)) (hf : Frame env s e.vars)
    (hroom : 8 * e.depth ≤ (s.reg .rsp).toNat) (hw : (e.wide env).map f = some w)
    (hlast : ∀ {t : State}, CodeAt code t.pc last →
      ∃ u, Leaves code last.length (f (t.reg .rax)) t u) :
    ∃ u, Leaves code ((gen e n).1 ++ last).length w s u := by
  obtain ⟨w', hw', rfl⟩ := map_eq_some_iff.mp hw
  obtain ⟨t, h1⟩ := ih hlongs h.left hf hroom hw'
  obtain ⟨u, h2⟩ := hlast (t := t) (by rw [h1.pc_eq]; exact h.right)
  rw [h1.rax_eq] at h2
  rw [length_append]
  exact ⟨u, h1.trans h2⟩

/-- The code of `&&` or `||`, with the condition of its jumps and its two outcomes. -/
lemma Computes.shortcut (hnodup : (labelsOf code).Nodup) {lhs rhs : Expr} {l : BitVec 64}
    {c : Cond} (ihl : Computes code env lhs) (ihr : Computes code env rhs)
    (hlongs : lhs.Longs ∧ rhs.Longs) (ha : Ty.long.Holds a) (hb : Ty.long.Holds b)
    {whole : List Instr} (h : CodeAt code s.pc whole)
    (hwhole : whole = (gen lhs (n + 2)).1 ++ [.test, .jcc c (n + 1)] ++
      (gen rhs (gen lhs (n + 2)).2).1 ++ [.test, .jcc c (n + 1), loadImmediate a, .jmp (n + 2),
        .label (n + 1), loadImmediate b, .label (n + 2)]) (hf : Frame env s (lhs.vars ++ rhs.vars))
    (hroom : 8 * max lhs.depth rhs.depth ≤ (s.reg .rsp).toNat) (hl : lhs.wide env = some l)
    (hr : ¬ c.holds (compare l 0) = true → rhs.wide env = some r) :
    ∃ t, Leaves code whole.length (if c.holds (compare l 0) = true ∨ c.holds (compare r 0) = true then
      BitVec.ofInt 64 b else BitVec.ofInt 64 a) s t := by
  have hfl : Frame env s lhs.vars := fun x hx => hf x (mem_append_left _ hx)
  have hfr : Frame env s rhs.vars := fun x hx => hf x (mem_append_right _ hx)
  simp only [append_assoc, cons_append, nil_append] at hwhole
  rw [hwhole] at h
  obtain ⟨t, ht⟩ := shortcut_leaves (r := r) hnodup ha hb h
    (ihl hlongs.1 h.left hfl (by omega) hl) fun hgo s' hpc hsp hkept =>
      ihr hlongs.2 (by rw [hpc]; exact h.right.tail.tail.left) (hfr.congr hkept (by rw [hsp]))
        (by rw [hsp]; omega) (hr hgo)
  refine ⟨t, ht.reaches.leaves ?_⟩
  simp only [hwhole, length_append, length_cons, length_nil]
  omega

/-- The code of an expression leaves its number in `rax`. -/
theorem gen_leaves (hnodup : (labelsOf code).Nodup) (hlongs : e.Longs)
    (h : CodeAt code s.pc (gen e n).1) (hf : Frame env s e.vars)
    (hroom : 8 * e.depth ≤ (s.reg .rsp).toNat) (hw : e.wide env = some w) :
    ∃ t, Leaves code (gen e n).1.length w s t := by
  -- by induction on the tree; the state and the place of the code vary
  induction e generalizing n s w with
  | num v t =>
    cases hw
    exact ⟨_, loadImmediate_leaves hlongs h⟩
  | var x =>
    cases hw
    exact var_leaves (hf x (mem_singleton_self x)) h
  | cast t e ih => exact Computes.unary ih hlongs h hf hroom hw (castRax_leaves e.type t)
  | neg e ih =>
    exact Computes.unary ih hlongs h hf hroom hw fun hcode =>
      ⟨_, hcode.leaves_set (i := .neg) trivial rfl⟩
  | bitnot e ih =>
    exact Computes.unary ih hlongs h hf hroom hw fun hcode =>
      ⟨_, hcode.leaves_set (i := .not) trivial rfl⟩
  | not e ih =>
    refine Computes.unary (f := fun w => truth (w = 0)) ih hlongs h hf hroom hw fun hcode => ?_
    obtain ⟨u, hu⟩ := compared_leaves (i := .test) .e hcode trivial rfl
    rw [truth_congr (holds_e_compare _ _)] at hu
    exact ⟨u, hu⟩
  | bin op lhs rhs ihl ihr =>
    obtain ⟨r, hr, hw⟩ := bind_eq_some_iff.mp hw
    obtain ⟨l, hl, hop⟩ := bind_eq_some_iff.mp hw
    have hdepth : (Expr.bin op lhs rhs).depth = max rhs.depth (lhs.depth + 1) := rfl
    have hfl : Frame env s lhs.vars := fun x hx => hf x (mem_append_left _ hx)
    have hfr : Frame env s rhs.vars := fun x hx => hf x (mem_append_right _ hx)
    rw [gen] at h ⊢
    dsimp only at h ⊢
    generalize hright : gen rhs n = right at h ⊢
    generalize hleft : gen lhs right.2 = left at h ⊢
    have hcode : CodeAt code s.pc (right.1 ++ (.push :: left.1 ++ .pop .rdi ::
        opCode op lhs.type (Expr.bin op lhs rhs).type)) := by
      simpa only [append_assoc, cons_append, nil_append] using h
    -- the right side, then the left side under what was pushed
    obtain ⟨t1, h1⟩ := ihr hlongs.2 (n := n) (by rw [hright]; exact hcode.left) hfr (by omega) hr
    rw [hright] at h1
    have hcode1 := hcode.right
    rw [← h1.pc_eq] at hcode1
    have hroom1 : 8 ≤ (t1.reg .rsp).toNat := by
      rw [h1.rsp_eq]
      omega
    obtain ⟨t2, h2, hdi⟩ := pushed_leaves (l := l) hroom1 hcode1 fun s' hpc hkept hsp => by
      have hroom' : 8 * lhs.depth ≤ (s'.reg .rsp).toNat := by
        rw [h1.rsp_eq] at hsp
        omega
      obtain ⟨t, ht⟩ := ihl hlongs.1 (n := right.2) (s := s')
        (by rw [hleft, hpc]; exact CodeAt.left hcode1.tail)
        ((h1.frame hfl).congr hkept (by omega)) hroom' hl
      rw [hleft] at ht
      exact ⟨t, ht⟩
    have hcode2 : CodeAt code t2.pc (opCode op lhs.type (Expr.bin op lhs rhs).type) := by
      rw [h2.pc_eq]
      have hlast := (CodeAt.right hcode1).tail
      rwa [length_cons, Nat.add_assoc] at hlast
    rw [← h2.rax_eq, ← h1.rax_eq, ← hdi] at hop
    obtain ⟨t3, h3⟩ := opCode_leaves hcode2 hop
    refine ⟨t3, ((h1.trans h2).trans h3).reaches.leaves ?_⟩
    simp only [length_append, length_cons, length_nil]
    omega
  | and lhs rhs ihl ihr =>
    obtain ⟨l, hl, hw⟩ := bind_eq_some_iff.mp hw
    -- the right side has a number if it is run
    obtain ⟨r, hr, rfl⟩ : ∃ r, (l ≠ 0 → rhs.wide env = some r) ∧
        w = if l = 0 ∨ r = 0 then 0 else 1 := by
      split at hw
      next hzero =>
        cases hw
        exact ⟨0, fun hne => absurd hzero hne, (if_pos (.inl hzero)).symm⟩
      next hzero =>
        obtain ⟨r, hr, rfl⟩ := map_eq_some_iff.mp hw
        refine ⟨r, fun _ => hr, ?_⟩
        rw [truth]
        by_cases hr0 : r = 0
        · rw [if_neg (not_not.mpr hr0), if_pos (Or.inr hr0)]
        · rw [if_pos hr0, if_neg (not_or.mpr ⟨hzero, hr0⟩)]
    obtain ⟨t, ht⟩ := Computes.shortcut (r := r) hnodup ihl ihr hlongs (by decide) (by decide) h rfl hf
      hroom hl fun hne => hr (mt (holds_e_compare l 0).mpr hne)
    simp only [holds_e_compare] at ht
    exact ⟨t, ht⟩
  | or lhs rhs ihl ihr =>
    obtain ⟨l, hl, hw⟩ := bind_eq_some_iff.mp hw
    obtain ⟨r, hr, rfl⟩ : ∃ r, (l = 0 → rhs.wide env = some r) ∧
        w = if l ≠ 0 ∨ r ≠ 0 then 1 else 0 := by
      split at hw
      next hzero =>
        obtain ⟨r, hr, rfl⟩ := map_eq_some_iff.mp hw
        refine ⟨r, fun _ => hr, ?_⟩
        rw [truth]
        by_cases hr0 : r = 0
        · rw [if_neg (not_not.mpr hr0), if_neg (not_or.mpr ⟨not_not.mpr hzero, not_not.mpr hr0⟩)]
        · rw [if_pos hr0, if_pos (Or.inr hr0)]
      next hzero =>
        cases hw
        exact ⟨0, fun hz => absurd hz hzero, (if_pos (.inl hzero)).symm⟩
    obtain ⟨t, ht⟩ := Computes.shortcut (r := r) hnodup ihl ihr hlongs (by decide) (by decide) h rfl hf
      hroom hl fun hne => hr (not_not.mp (mt (holds_ne_compare l 0).mpr hne))
    simp only [holds_ne_compare] at ht
    exact ⟨t, ht⟩
  | cond c then_ else_ ihc iht ihe =>
    obtain ⟨v, hv, hw⟩ := bind_eq_some_iff.mp hw
    have hdepth : (Expr.cond c then_ else_).depth = max c.depth (max then_.depth else_.depth) := rfl
    have hfc : Frame env s c.vars := fun x hx =>
      hf x (mem_append_left _ (mem_append_left _ hx))
    have hft : Frame env s then_.vars := fun x hx =>
      hf x (mem_append_left _ (mem_append_right _ hx))
    have hfe : Frame env s else_.vars := fun x hx => hf x (mem_append_right _ hx)
    rw [gen] at h ⊢
    dsimp only at h ⊢
    generalize hcond : gen c (n + 2) = first at h ⊢
    generalize hyes : gen then_ first.2 = yes at h ⊢
    generalize hno : gen else_ yes.2 = no at h ⊢
    have hcode : CodeAt code s.pc (first.1 ++ .test :: .jcc .e (n + 1) :: (yes.1 ++
        .jmp (n + 2) :: .label (n + 1) :: (no.1 ++ [.label (n + 2)]))) := by
      simpa only [append_assoc, cons_append, nil_append] using h
    have hbranches := hcode.right.tail.tail
    have helse := hbranches.right.tail
    have hend := helse.tail.right
    have hother : labelAt code (n + 1) = _ := labelAt_eq hnodup helse
    obtain ⟨t1, h1⟩ := ihc hlongs.1 (n := n + 2) (by rw [hcond]; exact hcode.left) hfc (by omega) hv
    rw [hcond] at h1
    obtain ⟨t2, h2⟩ := test_reaches (s := t1) (by rw [h1.pc_eq]; exact hcode.right)
    rw [h1.rax_eq] at h2
    have h12 := h1.reaches.trans h2
    have hroom2 := h12.rsp_eq
    by_cases hzero : v = 0
    · -- the jump is taken: the label, the other branch, the last label
      rw [if_pos hzero] at hw
      rw [if_pos ((holds_e_compare v 0).mpr hzero), hother] at h12
      have h3 := label_leaves (s := t2) (by rw [h12.pc_eq]; exact helse)
      have h13 := h12.trans h3.reaches
      obtain ⟨t4, h4⟩ := ihe hlongs.2.2 (n := yes.2) (s := t2.next)
        (by rw [hno, h13.pc_eq, h12.pc_eq]; exact helse.tail.left) (h13.frame hfe)
        (by rw [h13.rsp_eq]; omega) hw
      rw [hno] at h4
      have h14 := h13.trans h4.reaches
      have hpc4 : t4.pc = _ := h4.pc_eq.trans (congrArg (· + no.1.length)
        (h13.pc_eq.trans (congrArg (· + 1) h12.pc_eq)))
      have h5 := label_leaves (s := t4) (by rw [hpc4]; exact hend)
      rw [h4.rax_eq] at h5
      refine ⟨_, (h14.trans h5.reaches).leaves ?_⟩
      rw [hpc4]
      simp only [length_append, length_cons, length_nil]
      omega
    · rw [if_neg hzero] at hw
      rw [if_neg (mt (holds_e_compare v 0).mp hzero), h1.pc_eq] at h12
      obtain ⟨t3, h3⟩ := iht hlongs.2.1 (n := first.2) (s := t2)
        (by rw [hyes, h12.pc_eq]; exact hbranches.left) (h12.frame hft) (by rw [hroom2]; omega) hw
      rw [hyes] at h3
      have h13 := h12.trans h3.reaches
      have hpc3 : t3.pc = _ := h3.pc_eq.trans (congrArg (· + yes.1.length) h12.pc_eq)
      -- the branch is run and the other one jumped over
      obtain ⟨t4, h4⟩ := jump_reaches (s := t3) hnodup (by rw [hpc3]; exact hbranches.right) hend
      rw [h3.rax_eq] at h4
      refine ⟨t4, (h13.trans h4).leaves ?_⟩
      simp only [length_append, length_cons, length_nil]
      omega

end Wos.Wcc
