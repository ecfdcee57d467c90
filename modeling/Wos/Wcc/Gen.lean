import Wos.Wcc.Machine
import Wos.Wcc.Values

/-!
# The code of an expression

`gen_expr` and what it calls, on trees the type pass has been over. Every expression leaves its value
in `rax`; a binary operator evaluates its right side, pushes it, evaluates its left side and pops.

The labels of the short-circuit operators are numbers from one counter, which is passed along.

## Main definitions

* `loadImmediate`, `castRax`, `opCode`, `gen`: the generator;
* `Observer`, `Observer.code`: the places where the value of an expression is used;
* `switchCode`: the comparisons of a `switch`.
-/

namespace Wos.Wcc

open Instr

/-- `load_immediate`. -/
def loadImmediate (v : ℤ) : Instr :=
  if 0 ≤ v ∧ v ≤ 0xFFFFFFFF then movImm32 (BitVec.ofInt 32 v)
  else if -2147483648 ≤ v ∧ v < 0 then movImmSigned (BitVec.ofInt 32 v)
  else movabs (BitVec.ofInt 64 v)

/-- Make the outcome of a comparison the value in `rax`. -/
def setBool (c : Cond) : List Instr := [setcc c, movzbl]

/-- `cast_rax`, between integers. -/
def castRax (source target : Ty) : List Instr :=
  if target = .bool then test :: setBool .ne
  else if target.size < 8 then [extend target.size target.isUnsigned]
  else if source.size = 4 ∧ source.isUnsigned = false then [extend 4 false]
  else []

/-- The conditions of `compare_and_set`. -/
def conditionOf (op : BinOp) (unsigned : Bool) : Cond :=
  match op with
  | .eq => .e
  | .ne => .ne
  | .lt => if unsigned then .b else .l
  | .le => if unsigned then .be else .le
  | _ => .e

/-- The instructions of a binary operator, once the left side is in `rax` and the right one in `rdi`.
`operand` is the type of the left side and `result` that of the node. -/
def opCode (op : BinOp) (operand result : Ty) : List Instr :=
  let long : Bool := operand.size = 8
  let division : List Instr :=
    if result.isUnsigned then [clearDx, div long] else [signDx long, idiv long]
  match op with
  | .add => [alu .add long]
  | .sub => [alu .sub long]
  | .mul => [alu .imul long]
  | .div => division
  | .mod => division ++ [mov .rax .rdx]
  | .bitand => [alu .and long]
  | .bitor => [alu .or long]
  | .bitxor => [alu .xor long]
  | .shl => [mov .rcx .rdi, shift .shl long]
  | .shr => [mov .rcx .rdi, shift (if result.isUnsigned then .shr else .sar) long]
  | .eq | .ne | .lt | .le => cmp :: setBool (conditionOf op operand.isUnsigned)

/-- `gen_expr`: the code of an expression, and the counter after it. -/
def gen : Expr → ℕ → List Instr × ℕ
  | .num v _, n => ([loadImmediate v], n)
  | .var x, n =>
    ([leaFrame .rax (BitVec.ofInt 32 x.offset), load x.type.size x.type.isUnsigned], n)
  | .cast t e, n =>
    let (code, n) := gen e n
    (code ++ castRax e.type t, n)
  | .neg e, n =>
    let (code, n) := gen e n
    (code ++ [Instr.neg], n)
  | .bitnot e, n =>
    let (code, n) := gen e n
    (code ++ [Instr.not], n)
  | .not e, n =>
    let (code, n) := gen e n
    (code ++ test :: setBool .e, n)
  | .bin op lhs rhs, n =>
    let (right, n) := gen rhs n
    let (left, n) := gen lhs n
    (right ++ [push] ++ left ++ [pop .rdi] ++ opCode op lhs.type (Expr.bin op lhs rhs).type, n)
  | .and lhs rhs, n =>
    let falseLabel := n + 1
    let endLabel := n + 2
    let (left, n) := gen lhs (n + 2)
    let (right, n) := gen rhs n
    (left ++ [test, jcc .e falseLabel] ++ right ++ [test, jcc .e falseLabel, loadImmediate 1,
      jmp endLabel, label falseLabel, loadImmediate 0, label endLabel], n)
  | .or lhs rhs, n =>
    let trueLabel := n + 1
    let endLabel := n + 2
    let (left, n) := gen lhs (n + 2)
    let (right, n) := gen rhs n
    (left ++ [test, jcc .ne trueLabel] ++ right ++ [test, jcc .ne trueLabel, loadImmediate 0,
      jmp endLabel, label trueLabel, loadImmediate 1, label endLabel], n)
  | .cond c then_ else_, n =>
    let elseLabel := n + 1
    let endLabel := n + 2
    let (test_, n) := gen c (n + 2)
    let (yes, n) := gen then_ n
    let (no, n) := gen else_ n
    (test_ ++ [test, jcc .e elseLabel] ++ yes ++ [jmp endLabel, label elseLabel] ++ no ++
      [label endLabel], n)

/-! ## Where a value is used -/

/-- The uses of a value: it is converted to a type, or stored to a variable, or tested as by `if`,
`while`, `!`, `&&`, `||` and `?:`, or compared with a case of a `switch`. -/
inductive Observer
  | converted (t : Ty)
  | stored (x : Var)
  | tested
  | matched (c : ℤ)
  deriving DecidableEq, Repr

/-- The instructions of a use, when the value in `rax` has the type `source`. What is stored is
converted first; a test and a comparison are followed by a jump or a `setcc` that looks at the flags
alone. -/
def Observer.code (source : Ty) : Observer → List Instr
  | converted t => castRax source t
  | stored x =>
    -- `ND_ASSIGN`, with `store_from_stack`
    castRax source x.type ++ [push, leaFrame .rax (BitVec.ofInt 32 x.offset), pop .rdi,
      store x.type.size, mov .rax .rdi]
  | tested => [test]
  | matched c => [push, loadImmediate c, mov .rdi .rax, pop .rax, cmp]

/-- The comparisons of a `switch`, in the order of its list of cases; each case has a label. -/
def switchCode : List (ℤ × ℕ) → List Instr
  | [] => []
  | (v, id) :: rest =>
    [push, loadImmediate v, mov .rdi .rax, pop .rax, cmp, jcc .e id] ++ switchCode rest

end Wos.Wcc
