import Mathlib.Data.BitVec
import Mathlib.Tactic.Linarith
import Mathlib.Tactic.Positivity
import Wos.Wcc.Types

/-!
# The values of C expressions

What an expression is worth in C, on a machine with 32-bit `int` and 64-bit `long`, with arithmetic
that wraps. Nothing here looks at the code that is generated.

An expression has no value where C leaves the result undefined: when it divides by zero, divides the
least value by minus one, or shifts by the width of its type or more.

## Main definitions

* `Ty.wrap`: the conversion to a type;
* `Expr.value`: the value of an expression;
* `Expr.Constants`: the constants are those the parser makes.

## Main results

* `Ty.wrap_holds`, `value_holds`: a value lies within its type.
-/

namespace Wos.Wcc

open Option Int

variable {v : ℤ} {t : Ty}

namespace Ty

/-- The width in bits. -/
def bits (t : Ty) : ℕ := 8 * t.size

/-- The conversion of a number to a type. -/
def wrap (t : Ty) (v : ℤ) : ℤ :=
  if t = bool then (if v = 0 then 0 else 1)
  else if t.isUnsigned then v % 2 ^ t.bits
  else v.bmod (2 ^ t.bits)

lemma wrap_holds (t : Ty) (v : ℤ) : t.Holds (t.wrap v) := by
  cases t with
  | bool =>
    change (0 : ℤ) ≤ (if v = 0 then 0 else 1) ∧ (if v = 0 then (0 : ℤ) else 1) < 2
    split <;> omega
  | uchar | ushort | uint | ulong =>
    refine ⟨emod_nonneg v (by decide), emod_lt_of_pos v (by decide)⟩
  | char | short | int | long =>
    exact ⟨le_bmod (by decide), bmod_lt (by decide)⟩

/-- A number within a type is converted to itself. -/
lemma wrap_eq_self (h : t.Holds v) : t.wrap v = v := by
  cases t with
  | bool =>
    obtain ⟨h0, h1⟩ := h
    change (if v = 0 then 0 else 1) = v
    split <;> omega
  | uchar | ushort | uint | ulong => exact emod_eq_of_lt h.1 h.2
  | char | short | int | long => exact bmod_eq_of_le h.1 h.2

end Ty

/-- Every value of a type is one of the type it is promoted to. -/
lemma Ty.Holds.promote (h : t.Holds v) : t.promote.Holds v := by
  cases t with
  | bool | char | uchar | short | ushort =>
    obtain ⟨h0, h1⟩ := h
    exact ⟨by omega, by omega⟩
  | int | uint | long | ulong => exact h

/-- A type holds what lies between zero and one of its values. -/
lemma Ty.Holds.of_between {w : ℤ} (h : t.Holds v) (hlow : v ≤ w ∨ 0 ≤ w)
    (hhigh : w ≤ v ∨ w ≤ 0) : t.Holds w := by
  cases t <;>
  · obtain ⟨h0, h1⟩ := h
    exact ⟨by omega, by omega⟩

lemma Ty.holds_int_bool (p : Prop) [Decidable p] : Ty.int.Holds (if p then 1 else 0) := by
  split <;> decide

/-- The value of an operator on operands of type `t`, which for a shift is the type of the left
one. -/
def BinOp.value (op : BinOp) (t : Ty) (l r : ℤ) : Option ℤ :=
  match op with
  | add => some (t.wrap (l + r))
  | sub => some (t.wrap (l - r))
  | mul => some (t.wrap (l * r))
  | div => if r = 0 ∨ ¬ t.Holds (l.tdiv r) then none else some (l.tdiv r)
  | mod => if r = 0 ∨ ¬ t.Holds (l.tdiv r) then none else some (l.tmod r)
  | bitand => some (t.wrap (BitVec.ofInt 64 l &&& BitVec.ofInt 64 r).toInt)
  | bitor => some (t.wrap (BitVec.ofInt 64 l ||| BitVec.ofInt 64 r).toInt)
  | bitxor => some (t.wrap (BitVec.ofInt 64 l ^^^ BitVec.ofInt 64 r).toInt)
  | shl => if 0 ≤ r ∧ r < t.bits then some (t.wrap (l * 2 ^ r.toNat)) else none
  | shr => if 0 ≤ r ∧ r < t.bits then some (l / 2 ^ r.toNat) else none
  | eq => some (if l = r then 1 else 0)
  | ne => some (if l = r then 0 else 1)
  | lt => some (if l < r then 1 else 0)
  | le => some (if l ≤ r then 1 else 0)

namespace Expr

/-- The value of an expression, where C defines one. -/
def value (env : Var → ℤ) : Expr → Option ℤ
  | num v t => some (t.wrap v)
  | var x => some (env x)
  | cast t e => (e.value env).map t.wrap
  | neg e => (e.value env).map fun v => e.cType.promote.wrap (-v)
  | bitnot e => (e.value env).map fun v => e.cType.promote.wrap (-v - 1)
  | not e => (e.value env).map fun v => if v = 0 then 1 else 0
  | bin op lhs rhs =>
    (lhs.value env).bind fun l => (rhs.value env).bind fun r =>
      if op.converts then
        let t := lhs.cType.usual rhs.cType
        op.value t (t.wrap l) (t.wrap r)
      else op.value lhs.cType.promote l r
  | and lhs rhs =>
    (lhs.value env).bind fun l =>
      if l = 0 then some 0 else (rhs.value env).map fun r => if r = 0 then 0 else 1
  | or lhs rhs =>
    (lhs.value env).bind fun l =>
      if l = 0 then (rhs.value env).map fun r => if r = 0 then 0 else 1 else some 1
  | cond c then_ else_ =>
    let t := then_.cType.usual else_.cType
    (c.value env).bind fun v =>
      if v = 0 then (else_.value env).map t.wrap else (then_.value env).map t.wrap

end Expr

/-- The remainder has the sign of the left operand and is not larger. -/
lemma tmod_between (l r : ℤ) : (l ≤ l.tmod r ∨ 0 ≤ l.tmod r) ∧ (l.tmod r ≤ l ∨ l.tmod r ≤ 0) := by
  have habs : (l.tmod r).natAbs ≤ l.natAbs := by
    rw [natAbs_tmod]
    exact Nat.mod_le _ _
  rcases le_total 0 l with hl | hl
  · have hsign := tmod_nonneg r hl
    omega
  · have hsign := tmod_nonneg r (neg_nonneg.mpr hl)
    rw [neg_tmod] at hsign
    omega

/-- A shift to the right leads towards zero, or towards minus one. -/
lemma shiftRight_between (l : ℤ) (n : ℕ) :
    (l ≤ l / 2 ^ n ∨ 0 ≤ l / 2 ^ n) ∧ (l / 2 ^ n ≤ l ∨ l / 2 ^ n ≤ 0) := by
  have hpos : (0 : ℤ) < 2 ^ n := by positivity
  rcases le_total 0 l with hl | hl
  · exact ⟨.inr (ediv_nonneg hl hpos.le), .inl (ediv_le_self _ hl)⟩
  refine ⟨.inl ?_, .inr ?_⟩
  · rw [Int.le_ediv_iff_mul_le hpos]
    nlinarith
  · exact Int.ediv_nonpos_of_nonpos_of_neg hl hpos

/-- What an operator returns lies within the type of its result. -/
theorem BinOp.value_holds {op : BinOp} {l r : ℤ} (hl : t.Holds l)
    (h : op.value t l r = some v) : (if op.compares then Ty.int else t).Holds v := by
  cases op with
  | add | sub | mul | bitand | bitor | bitxor =>
    cases h
    exact t.wrap_holds _
  | div =>
    rw [value] at h
    split_ifs at h with hok
    cases h
    exact not_not.mp (not_or.mp hok).2
  | mod =>
    rw [value] at h
    split_ifs at h
    cases h
    exact hl.of_between (tmod_between l r).1 (tmod_between l r).2
  | shl =>
    rw [value] at h
    split at h
    next =>
      cases h
      exact t.wrap_holds _
    next => cases h
  | shr =>
    rw [value] at h
    split at h
    next =>
      cases h
      exact hl.of_between (shiftRight_between l _).1 (shiftRight_between l _).2
    next => cases h
  | eq | ne | lt | le =>
    cases h
    change Ty.int.Holds (if _ then _ else _)
    split <;> decide

namespace Expr

/-- The value of an expression lies within its type. -/
theorem value_holds {env : Var → ℤ} (henv : ∀ x : Var, x.type.Holds (env x)) {e : Expr}
    (h : e.value env = some v) : e.cType.Holds v := by
  induction e generalizing v with
  | num w t =>
    cases h
    exact t.wrap_holds w
  | var x =>
    cases h
    exact henv x
  | cast t e ih =>
    obtain ⟨w, -, rfl⟩ := map_eq_some_iff.mp h
    exact t.wrap_holds w
  | neg e ih | bitnot e ih =>
    obtain ⟨w, -, rfl⟩ := map_eq_some_iff.mp h
    exact Ty.wrap_holds _ _
  | not e ih =>
    obtain ⟨w, -, rfl⟩ := map_eq_some_iff.mp h
    exact Ty.holds_int_bool _
  | bin op lhs rhs ihl ihr =>
    obtain ⟨l, hl, h⟩ := bind_eq_some_iff.mp h
    obtain ⟨r, -, h⟩ := bind_eq_some_iff.mp h
    rw [cType]
    by_cases hconv : op.converts
    · rw [if_pos hconv] at h ⊢
      exact BinOp.value_holds (Ty.wrap_holds _ l) h
    · rw [if_neg hconv] at h ⊢
      exact BinOp.value_holds (ihl hl).promote h
  | and lhs rhs ihl ihr =>
    obtain ⟨l, -, h⟩ := bind_eq_some_iff.mp h
    split at h
    next =>
      cases h
      change Ty.int.Holds _
      decide
    next =>
      obtain ⟨r, -, rfl⟩ := map_eq_some_iff.mp h
      change Ty.int.Holds _
      split <;> decide
  | or lhs rhs ihl ihr =>
    obtain ⟨l, -, h⟩ := bind_eq_some_iff.mp h
    split at h
    next =>
      obtain ⟨r, -, rfl⟩ := map_eq_some_iff.mp h
      change Ty.int.Holds _
      split <;> decide
    next =>
      cases h
      change Ty.int.Holds _
      decide
  | cond c then_ else_ ihc iht ihe =>
    obtain ⟨w, -, h⟩ := bind_eq_some_iff.mp h
    split at h <;>
    · obtain ⟨x, -, rfl⟩ := map_eq_some_iff.mp h
      exact Ty.wrap_holds _ x

/-- The constants are those the parser makes: of a type that `int` can be widened to, and within it.
The lexer makes whatever is above `0x7FFFFFFF` a `long`, with the suffix `u` too, and an unsigned
64-bit constant is kept as the `long` with the same bits. -/
def Constants : Expr → Prop
  | num v t => (t = .ulong ∧ Ty.long.Holds v) ∨
      ((t = .int ∨ t = .uint ∨ t = .long) ∧ t.Holds v ∧ (t = .uint → v < 2 ^ 31))
  | var _ => True
  | cast _ e | neg e | bitnot e | not e => e.Constants
  | bin _ lhs rhs | and lhs rhs | or lhs rhs => lhs.Constants ∧ rhs.Constants
  | cond c then_ else_ => c.Constants ∧ then_.Constants ∧ else_.Constants

end Expr

end Wos.Wcc
