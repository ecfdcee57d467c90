import Mathlib.Tactic.Ring

/-!
# Expressions of the compiler and their types

The parser makes trees, and a pass over them works out the type of every node and puts in the
conversions that C leaves unwritten. The pass has rules of its own for that, on sizes. What C says
is stated beside it, on ranks and ranges, and the two agree on every tree.

## Main definitions

* `Ty`, `Expr`: the integer types, and the trees without side effects;
* `commonType`, `Expr.type`, `Expr.addType`: the pass;
* `Ty.promote`, `Ty.usual`, `Expr.cType`: the types C gives.

## Main results

* `commonType_eq_usual`: the pass meets at the type of the usual arithmetic conversions;
* `type_addType`: the pass gives every tree the type C gives it.
-/

namespace Wos.Wcc

/-- The integer types, `base_types` without `void`. -/
inductive Ty
  | bool | char | short | int | long | uchar | ushort | uint | ulong
  deriving DecidableEq, Repr

namespace Ty

/-- The size in bytes. -/
def size : Ty → ℕ
  | bool | char | uchar => 1
  | short | ushort => 2
  | int | uint => 4
  | long | ulong => 8

/-- The flag `is_unsigned`. `_Bool` does not have it. -/
def isUnsigned : Ty → Bool
  | uchar | ushort | uint | ulong => true
  | bool | char | short | int | long => false

end Ty

/-- A local variable: its place in the frame, relative to `rbp`, and its type. -/
structure Var where
  offset : ℤ
  type : Ty
  deriving DecidableEq, Repr

/-- The binary operators that evaluate both sides. -/
inductive BinOp
  | add | sub | mul | div | mod | bitand | bitor | bitxor | shl | shr | eq | ne | lt | le
  deriving DecidableEq, Repr

/-- Whether the type pass brings both sides of the operator to one type. -/
def BinOp.converts : BinOp → Bool
  | .shl | .shr => false
  | _ => true

/-- Whether the operator compares. -/
def BinOp.compares : BinOp → Bool
  | .eq | .ne | .lt | .le => true
  | _ => false

/-- The trees the parser makes for expressions without side effects. -/
inductive Expr
  | num (value : ℤ) (type : Ty)
  | var (x : Var)
  | cast (type : Ty) (e : Expr)
  | neg (e : Expr)
  | bitnot (e : Expr)
  | not (e : Expr)
  | bin (op : BinOp) (lhs rhs : Expr)
  | and (lhs rhs : Expr)
  | or (lhs rhs : Expr)
  | cond (c then_ else_ : Expr)
  deriving DecidableEq, Repr

/-! ## The type pass -/

/-- A type narrower than `int` becomes `int`, as the pass decides it. -/
def widen (t : Ty) : Ty := if t.size < 4 then .int else t

/-- `common_type`, for integers. -/
def commonType (a b : Ty) : Ty :=
  let a := widen a
  let b := widen b
  if a.size ≠ b.size then (if b.size < a.size then a else b)
  else if b.isUnsigned then b
  else a

namespace Expr

/-- The type `add_type` gives a node whose conversions have been put in. -/
def type : Expr → Ty
  | num _ t => t
  | var x => x.type
  | cast t _ => t
  | neg e => widen e.type
  | bitnot e => widen e.type
  | not _ => .int
  | bin op lhs _ =>
    if op.compares then .int
    else if op.converts then lhs.type
    else widen lhs.type
  | and _ _ => .int
  | or _ _ => .int
  | cond _ then_ _ => then_.type

/-- `add_type`: put the conversions in. The operands of the unary operators and of the shifts get
none. -/
def addType : Expr → Expr
  | num v t => num v t
  | var x => var x
  | cast t e => cast t e.addType
  | neg e => neg e.addType
  | bitnot e => bitnot e.addType
  | not e => not e.addType
  | bin op lhs rhs =>
    let l := lhs.addType
    let r := rhs.addType
    if op.converts then
      -- `convert_operands`
      bin op (cast (commonType l.type r.type) l) (cast (commonType l.type r.type) r)
    else bin op l r
  | and lhs rhs => and lhs.addType rhs.addType
  | or lhs rhs => or lhs.addType rhs.addType
  | cond c then_ else_ =>
    let t := then_.addType
    let e := else_.addType
    cond c.addType (cast (commonType t.type e.type) t) (cast (commonType t.type e.type) e)

end Expr

/-! ## The types of C -/

namespace Ty

/-- The least and the greatest value of a type, as an interval. -/
def Holds (t : Ty) (v : ℤ) : Prop :=
  match t with
  | bool => 0 ≤ v ∧ v < 2
  | char => -128 ≤ v ∧ v < 128
  | uchar => 0 ≤ v ∧ v < 256
  | short => -32768 ≤ v ∧ v < 32768
  | ushort => 0 ≤ v ∧ v < 65536
  | int => -2147483648 ≤ v ∧ v < 2147483648
  | uint => 0 ≤ v ∧ v < 4294967296
  | long => -9223372036854775808 ≤ v ∧ v < 9223372036854775808
  | ulong => 0 ≤ v ∧ v < 18446744073709551616

instance (t : Ty) (v : ℤ) : Decidable (t.Holds v) := by
  unfold Holds
  cases t <;> infer_instance

/-- The conversion rank. -/
def rank : Ty → ℕ
  | bool => 0
  | char | uchar => 1
  | short | ushort => 2
  | int | uint => 3
  | long | ulong => 4

/-- The integer promotions: `int` can hold every value of a type of lower rank. -/
def promote (t : Ty) : Ty := if t.rank < 3 then int else t

/-- The usual arithmetic conversions. A signed type of higher rank holds every value of an unsigned
one here, since each rank has twice the width of the one below. -/
def usual (a b : Ty) : Ty :=
  let a := a.promote
  let b := b.promote
  if a.rank < b.rank then b
  else if b.rank < a.rank then a
  else if a.isUnsigned then a
  else b

end Ty

/-- The type C gives an expression. -/
def Expr.cType : Expr → Ty
  | num _ t => t
  | var x => x.type
  | cast t _ => t
  | neg e => e.cType.promote
  | bitnot e => e.cType.promote
  | not _ => .int
  | bin op lhs rhs =>
    if op.compares then .int
    else if op.converts then lhs.cType.usual rhs.cType
    else lhs.cType.promote
  | and _ _ => .int
  | or _ _ => .int
  | cond _ then_ else_ => then_.cType.usual else_.cType

lemma widen_eq_promote (t : Ty) : widen t = t.promote := by
  cases t <;> rfl

/-- The pass decides by size and C by rank, and both meet at the same type. -/
theorem commonType_eq_usual (a b : Ty) : commonType a b = a.usual b := by
  cases a <;> cases b <;> rfl

/-- The pass gives every tree the type C gives it. -/
theorem Expr.type_addType (e : Expr) : e.addType.type = e.cType := by
  induction e with
  | num v t => rfl
  | var x => rfl
  | cast t e ih => rfl
  | neg e ih | bitnot e ih => rw [addType, type, ih, cType, widen_eq_promote]
  | not e ih => rfl
  | bin op lhs rhs ihl ihr =>
    rw [addType, cType]
    by_cases hconv : op.converts
    · rw [if_pos hconv, type, type, if_pos hconv, if_pos hconv, ihl, ihr, commonType_eq_usual]
    · rw [if_neg hconv, type, if_neg hconv, if_neg hconv, ihl, widen_eq_promote]
  | and lhs rhs ihl ihr => rfl
  | or lhs rhs ihl ihr => rfl
  | cond c then_ else_ ihc iht ihe =>
    rw [addType, cType]
    rw [type, type, iht, ihe, commonType_eq_usual]

end Wos.Wcc
