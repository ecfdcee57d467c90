import Wos.Wcc.Correct

/-!
# Where the code of an expression shows its value

The code keeps the low bits of every value right and not always the rest of the register. The sum of
two numbers of 32 bits clears the upper half even if it is negative, and a minus sign or a complement
works on all 64 bits. A use that looks at more than the low bits may then see another value: a test, a
comparison with the labels of a `switch`, the conversion of an unsigned number to 64 bits.

Which value it sees is told by C values alone. `Expr.over` is the number that the register stands for,
taken as an integer; a use is fine if that number does what the value would do.

## Main definitions

* `Expr.over`: the integer in the register;
* `Observer.Sees`: a use sees the value;
* `Observer.Fine`: the condition, on C values;
* `Everywhere`: at every use in the part of a tree that is evaluated.

## Main results

* `wide_eq_over`: the register stands for `over`, as long as every use saw its value;
* `sees_iff_fine`: one use;
* `everywhere_right_iff`: every use of a tree.
-/

namespace Wos.Wcc

open Option List Int
open BitVec hiding and_assoc

/-! ## Integers and registers -/

variable {x : ℤ}

variable {lhs rhs : Expr} {n : ℕ} {y : ℤ}

lemma ofInt_eq_iff : BitVec.ofInt n x = BitVec.ofInt n y ↔ (2 ^ n : ℤ) ∣ x - y := by
  rw [← toInt_inj, toInt_ofInt, toInt_ofInt,
    bmod_eq_bmod_iff_bmod_sub_eq_zero, ← dvd_iff_bmod_eq_zero]
  push_cast
  rfl

/-- The low bits of a number. -/
lemma narrow_ofInt (h : n ≤ 64) (x : ℤ) :
    (BitVec.ofInt 64 x).setWidth n = BitVec.ofInt n x := by
  apply eq_of_toInt_eq
  have hdvd : 2 ^ n ∣ 2 ^ 64 := Nat.pow_dvd_pow 2 h
  rw [← signExtend_eq_setWidth_of_le _ h, toInt_signExtend, Nat.min_eq_left h,
    toInt_ofInt, toInt_ofInt, bmod_bmod_of_dvd hdvd]

variable {t : Ty}

namespace Ty

lemma bits_le (t : Ty) : t.bits ≤ 64 := by cases t <;> decide

/-- A conversion, except to `_Bool`, keeps the low bits. -/
lemma dvd_wrap_sub (h : t ≠ bool) (v : ℤ) : (2 ^ t.bits : ℤ) ∣ t.wrap v - v := by
  rw [wrap, if_neg h]
  split_ifs
  · exact dvd_emod_sub_self
  have hdvd := dvd_bmod_sub_self (x := v) (m := 2 ^ t.bits)
  push_cast at hdvd
  exact hdvd

lemma ofInt_wrap (h : t ≠ bool) (v : ℤ) :
    BitVec.ofInt t.bits (t.wrap v) = BitVec.ofInt t.bits v :=
  ofInt_eq_iff.mpr (t.dvd_wrap_sub h v)

lemma promote_ne_bool (t : Ty) : t.promote ≠ bool := by cases t <;> decide

/-- The types of operators have 32 bits or 64. -/
lemma usual_size (a b : Ty) : (a.usual b).size = 4 ∨ (a.usual b).size = 8 := by
  cases a <;> cases b <;> decide

lemma promote_size (t : Ty) : t.promote.size = 4 ∨ t.promote.size = 8 := by
  cases t <;> decide

end Ty

/-! ## The integer in the register -/

/-- The integer the register stands for. A minus sign and a complement are taken in all bits; another
operator of 32 bits clears the upper half. -/
def Expr.over (env : Var → ℤ) : Expr → Option ℤ
  | neg e => (e.over env).map (-·)
  | bitnot e => (e.over env).map (-· - 1)
  | bin op lhs rhs =>
    let e := bin op lhs rhs
    if op.compares = false ∧ e.cType.size = 4 then (e.value env).map (· % 2 ^ 32) else e.value env
  | e => e.value env

/-- A use sees the value `v` of an expression of type `source`, when the register holds `w`. -/
def Observer.Sees (source : Ty) (w : BitVec 64) (v : ℤ) : Observer → Prop
  | converted t => castWide source t w = BitVec.ofInt 64 (t.wrap v)
  | stored x => castWide source x.type w = BitVec.ofInt 64 (x.type.wrap v)
  | tested => w = 0 ↔ v = 0
  | matched c => w = BitVec.ofInt 64 c ↔ source.promote.wrap c = v

/-- The condition for that, when the register stands for the integer `x`. -/
def Observer.Fine (source : Ty) (x v : ℤ) : Observer → Prop
  | converted t | stored ⟨_, t⟩ =>
    if t = .bool then (2 ^ 64 ∣ x ↔ v = 0)
    else if t.size = 8 ∧ source ≠ .int then 2 ^ 64 ∣ x - v
    else True
  | tested => 2 ^ 64 ∣ x ↔ v = 0
  | matched c => 2 ^ 64 ∣ x - c ↔ source.promote.wrap c = v

/-- A property of every use in the part of a tree that is evaluated. -/
def Everywhere (P : Observer → Expr → Prop) (env : Var → ℤ) : Expr → Prop
  | .num _ _ | .var _ => True
  | .cast t e => Everywhere P env e ∧ P (.converted t) e
  | .neg e | .bitnot e => Everywhere P env e
  | .not e => Everywhere P env e ∧ P .tested e
  | .bin op lhs rhs =>
    Everywhere P env lhs ∧ Everywhere P env rhs ∧
      (op.converts = true → P (.converted (lhs.cType.usual rhs.cType)) lhs ∧
        P (.converted (lhs.cType.usual rhs.cType)) rhs)
  | .and lhs rhs =>
    Everywhere P env lhs ∧ P .tested lhs ∧
      (lhs.value env ≠ some 0 → Everywhere P env rhs ∧ P .tested rhs)
  | .or lhs rhs =>
    Everywhere P env lhs ∧ P .tested lhs ∧
      (lhs.value env = some 0 → Everywhere P env rhs ∧ P .tested rhs)
  | .cond c then_ else_ =>
    Everywhere P env c ∧ P .tested c ∧
      (c.value env = some 0 → Everywhere P env else_ ∧
        P (.converted (then_.cType.usual else_.cType)) else_) ∧
      (c.value env ≠ some 0 → Everywhere P env then_ ∧
        P (.converted (then_.cType.usual else_.cType)) then_)

/-! ## Operators -/

variable {v l r : ℤ} {op : BinOp}

section Operators

variable {t : Ty} (ht : t.size = 4 ∨ t.size = 8)

/-- A type that operators work on is `int`, `long` or one of their unsigned forms. -/
lemma operator_type (ht : t.size = 4 ∨ t.size = 8) :
    t = .int ∨ t = .uint ∨ t = .long ∨ t = .ulong := by
  cases t <;> revert ht <;> decide

include ht

/-- A value of a signed type, read back from the bits of its width. -/
lemma toInt_ofInt_of_holds (hs : t.isUnsigned = false) (hv : t.Holds v) :
    (BitVec.ofInt t.bits v).toInt = v := by
  rw [toInt_ofInt]
  rcases operator_type ht with rfl | rfl | rfl | rfl
  · exact bmod_eq_of_le hv.1 hv.2
  · cases hs
  · exact bmod_eq_of_le hv.1 hv.2
  · cases hs

/-- A value of an unsigned type, read back from the bits of its width. -/
lemma toNat_ofInt_of_holds (hs : t.isUnsigned = true) (hv : t.Holds v) :
    ((BitVec.ofInt t.bits v).toNat : ℤ) = v := by
  have hself : v % ((2 ^ t.bits : ℕ) : ℤ) = v ∧ 0 ≤ v := by
    rcases operator_type ht with rfl | rfl | rfl | rfl
    · cases hs
    · exact ⟨emod_eq_of_lt hv.1 hv.2, hv.1⟩
    · cases hs
    · exact ⟨emod_eq_of_lt hv.1 hv.2, hv.1⟩
  rw [toNat_ofInt, hself.1]
  exact toNat_of_nonneg hself.2

lemma ne_bool_of_size : t ≠ .bool := by
  rintro rfl
  revert ht
  decide

/-- Zero is the only value whose bits are zero. -/
lemma ofInt_eq_zero_iff (hv : t.Holds v) : BitVec.ofInt t.bits v = 0 ↔ v = 0 := by
  constructor
  · intro h
    cases hs : t.isUnsigned with
    | false =>
      rw [← toInt_ofInt_of_holds ht hs hv, h]
      exact toInt_zero
    | true =>
      rw [← toNat_ofInt_of_holds ht hs hv, h]
      rfl
  · rintro rfl
    apply eq_of_toInt_eq
    rw [toInt_ofInt, zero_bmod]
    exact toInt_zero.symm

/-- Division of values that C defines. -/
lemma divide_eq (hl : t.Holds l) (hr : t.Holds r) (hr0 : r ≠ 0) (hq : t.Holds (l.tdiv r)) :
    divide t.isUnsigned (BitVec.ofInt t.bits l) (BitVec.ofInt t.bits r) =
      some (BitVec.ofInt t.bits (l.tdiv r), BitVec.ofInt t.bits (l.tmod r)) := by
  have hb : BitVec.ofInt t.bits r ≠ 0 := mt (ofInt_eq_zero_iff ht hr).mp hr0
  rw [divide, if_neg hb]
  cases hs : t.isUnsigned with
  | true =>
    rw [if_pos rfl]
    have hl' := toNat_ofInt_of_holds ht hs hl
    have hr' := toNat_ofInt_of_holds ht hs hr
    congr 2
    · apply eq_of_toNat_eq
      zify
      rw [toNat_ofInt_of_holds ht hs hq, toNat_udiv, natCast_ediv, hl', hr',
        tdiv_eq_ediv_of_nonneg (by rw [← hl']; exact natCast_nonneg _)]
    · apply eq_of_toNat_eq
      have hm : t.Holds (l.tmod r) := hl.of_between (tmod_between l r).1 (tmod_between l r).2
      zify
      rw [toNat_ofInt_of_holds ht hs hm, toNat_umod, natCast_emod, hl', hr',
        tmod_eq_emod_of_nonneg (by rw [← hl']; exact natCast_nonneg _)]
  | false =>
    rw [if_neg Bool.false_ne_true]
    have hl' := toInt_ofInt_of_holds ht hs hl
    have hr' := toInt_ofInt_of_holds ht hs hr
    -- the one quotient that does not fit is not a value
    have hmin : ¬ (BitVec.ofInt t.bits l = BitVec.intMin t.bits ∧ BitVec.ofInt t.bits r = -1) := by
      rintro ⟨hmin, hneg⟩
      rw [hmin] at hl'
      rw [hneg] at hr'
      subst hl' hr'
      revert hq hs
      rcases operator_type ht with rfl | rfl | rfl | rfl <;> decide
    rw [if_neg hmin]
    congr 2
    · apply eq_of_toInt_eq
      rw [toInt_sdiv, hl', hr', toInt_ofInt]
    · apply eq_of_toInt_eq
      have hm : t.Holds (l.tmod r) := hl.of_between (tmod_between l r).1 (tmod_between l r).2
      rw [toInt_srem, hl', hr', toInt_ofInt_of_holds ht hs hm]

omit ht in
/-- A bitwise operator on numbers works on their low bits. -/
lemma ofInt_toInt_narrow (w : BitVec 64) : BitVec.ofInt t.bits w.toInt = w.setWidth t.bits := by
  rw [← narrow_ofInt t.bits_le, ofInt_toInt]

omit ht in
lemma ofInt_shiftLeft (n k : ℕ) (l : ℤ) :
    BitVec.ofInt n l <<< k = BitVec.ofInt n (l * 2 ^ k) := by
  apply eq_of_toInt_eq
  rw [toInt_shiftLeft, Nat.shiftLeft_eq, toInt_ofInt, toNat_ofInt]
  push_cast
  have hpos : (0 : ℤ) < 2 ^ n := by positivity
  rw [toNat_of_nonneg (emod_nonneg l hpos.ne'), bmod_eq_bmod_iff_bmod_sub_eq_zero,
    ← dvd_iff_bmod_eq_zero, ← sub_mul]
  push_cast
  exact Dvd.dvd.mul_right dvd_emod_sub_self _

/-- An operator on the bits of its operands makes the bits of its value. A shift finds its count. -/
lemma opBits_eq (hop : op.compares = false) {count : ℕ} (hl : t.Holds l)
    (hr : op.converts = true → t.Holds r) (hcount : 0 ≤ r → r < t.bits → count % t.bits = r.toNat)
    (hv : op.value t l r = some v) :
    opBits op t.isUnsigned (BitVec.ofInt t.bits l) (BitVec.ofInt t.bits r) count =
      some (BitVec.ofInt t.bits v) := by
  have hbool := ne_bool_of_size ht
  cases op with
  | add =>
    cases hv
    rw [opBits, t.ofInt_wrap hbool, ofInt_add]
  | sub =>
    cases hv
    rw [opBits, t.ofInt_wrap hbool, Int.sub_eq_add_neg, ofInt_add, ofInt_neg, sub_eq_add_neg]
  | mul =>
    cases hv
    rw [opBits, t.ofInt_wrap hbool, ofInt_mul]
  | div | mod =>
    rw [BinOp.value] at hv
    split_ifs at hv with hdef
    obtain ⟨hr0, hq⟩ := not_or.mp hdef
    cases hv
    rw [opBits, divide_eq ht hl (hr rfl) hr0 (not_not.mp hq), map_some]
  -- the value is computed in 64 bits and narrowed, the bits in the width of the type
  | bitand =>
    cases hv
    rw [opBits, t.ofInt_wrap hbool, ofInt_toInt_narrow, setWidth_and,
      narrow_ofInt t.bits_le, narrow_ofInt t.bits_le]
  | bitor =>
    cases hv
    rw [opBits, t.ofInt_wrap hbool, ofInt_toInt_narrow, setWidth_or,
      narrow_ofInt t.bits_le, narrow_ofInt t.bits_le]
  | bitxor =>
    cases hv
    rw [opBits, t.ofInt_wrap hbool, ofInt_toInt_narrow, setWidth_xor,
      narrow_ofInt t.bits_le, narrow_ofInt t.bits_le]
  | shl =>
    rw [BinOp.value] at hv
    split at hv
    next hrange =>
      cases hv
      rw [opBits, hcount hrange.1 hrange.2, t.ofInt_wrap hbool, ofInt_shiftLeft]
    next => cases hv
  | shr =>
    rw [BinOp.value] at hv
    split at hv
    next hrange =>
      cases hv
      have hholds : t.Holds (l / 2 ^ r.toNat) :=
        hl.of_between (shiftRight_between l _).1 (shiftRight_between l _).2
      rw [opBits, hcount hrange.1 hrange.2]
      congr 1
      cases hs : t.isUnsigned with
      | false =>
        rw [if_neg Bool.false_ne_true]
        apply eq_of_toInt_eq
        rw [toInt_sshiftRight, toInt_ofInt_of_holds ht hs hl,
          toInt_ofInt_of_holds ht hs hholds, shiftRight_eq_div_pow]
        push_cast
        rfl
      | true =>
        rw [if_pos rfl]
        apply eq_of_toNat_eq
        zify
        rw [toNat_ofInt_of_holds ht hs hholds, toNat_ushiftRight, Nat.shiftRight_eq_div_pow]
        push_cast
        rw [toNat_ofInt_of_holds ht hs hl]
    next => cases hv
  | eq | ne | lt | le => cases hop

omit ht in
/-- A signed value in a register of 64 bits. -/
lemma toInt_wide (hs : t.isUnsigned = false) (hv : t.Holds v) :
    (BitVec.ofInt 64 v).toInt = v := by
  have hlong : Ty.long.Holds v := by
    cases t <;> first | (cases hs; done) | (obtain ⟨h0, h1⟩ := hv; exact ⟨by omega, by omega⟩)
  rw [toInt_ofInt]
  exact bmod_eq_of_le hlong.1 hlong.2

omit ht in
/-- An unsigned value in a register of 64 bits. -/
lemma toNat_wide (hs : t.isUnsigned = true) (hv : t.Holds v) :
    ((BitVec.ofInt 64 v).toNat : ℤ) = v := by
  have hulong : Ty.ulong.Holds v := by
    cases t <;> first | (cases hs; done) | (obtain ⟨h0, h1⟩ := hv; exact ⟨by omega, by omega⟩)
  exact toNat_ofInt_of_holds (t := .ulong) (.inr rfl) rfl hulong

omit ht in
/-- Values of one type are equal if their registers are. -/
lemma ofInt_inj_of_holds (hl : t.Holds l) (hr : t.Holds r) :
    BitVec.ofInt 64 l = BitVec.ofInt 64 r ↔ l = r := by
  refine ⟨fun h => ?_, fun h => by rw [h]⟩
  cases hs : t.isUnsigned with
  | false => rw [← toInt_wide hs hl, h, toInt_wide hs hr]
  | true => rw [← toNat_wide hs hl, h, toNat_wide hs hr]

omit ht in
/-- A comparison of two values of one type finds out what C says. -/
lemma compare_value (hop : op.compares = true) (hl : t.Holds l) (hr : t.Holds r)
    (hv : op.value t l r = some v) :
    truth ((conditionOf op t.isUnsigned).holds
      (compare (BitVec.ofInt 64 l) (BitVec.ofInt 64 r)) = true) = BitVec.ofInt 64 v := by
  have heq := ofInt_inj_of_holds hl hr
  have hless : (conditionOf .lt t.isUnsigned).holds
      (compare (BitVec.ofInt 64 l) (BitVec.ofInt 64 r)) = true ↔ l < r := by
    cases hs : t.isUnsigned with
    | false =>
      change (BitVec.ofInt 64 l).slt (BitVec.ofInt 64 r) = true ↔ l < r
      rw [slt_iff_toInt_lt, toInt_wide hs hl, toInt_wide hs hr]
    | true =>
      change (BitVec.ofInt 64 l).ult (BitVec.ofInt 64 r) = true ↔ l < r
      have hl' := toNat_wide hs hl
      have hr' := toNat_wide hs hr
      rw [ult_iff_lt, lt_def]
      omega
  have hleq : (conditionOf .le t.isUnsigned).holds
      (compare (BitVec.ofInt 64 l) (BitVec.ofInt 64 r)) = true ↔ l ≤ r := by
    have hsplit : (conditionOf .le t.isUnsigned).holds
        (compare (BitVec.ofInt 64 l) (BitVec.ofInt 64 r)) =
        ((conditionOf .lt t.isUnsigned).holds (compare (BitVec.ofInt 64 l) (BitVec.ofInt 64 r)) ||
          decide (BitVec.ofInt 64 l = BitVec.ofInt 64 r)) := by
      cases t.isUnsigned <;> rfl
    rw [hsplit, Bool.or_eq_true, hless, decide_eq_true_iff, heq, le_iff_lt_or_eq]
  cases op with
  | eq =>
    cases hv
    rw [conditionOf, truth_congr ((holds_e_compare _ _).trans heq), truth]
    split <;> rfl
  | ne =>
    cases hv
    rw [conditionOf, truth_congr ((holds_ne_compare _ _).trans (not_congr heq)), truth]
    by_cases h : l = r
    · rw [if_neg (not_not.mpr h), if_pos h]
      rfl
    · rw [if_pos h, if_neg h]
      rfl
  | lt =>
    cases hv
    rw [truth_congr hless, truth]
    split <;> rfl
  | le =>
    cases hv
    rw [truth_congr hleq, truth]
    split <;> rfl
  | add | sub | mul | div | mod | bitand | bitor | bitxor | shl | shr => cases hop

end Operators

/-! ## The register stands for the integer -/

/-- A use of an expression sees its value when the code has run. -/
def Observer.Right (env : Var → ℤ) (o : Observer) (e : Expr) : Prop :=
  ∃ w v, e.addType.wide env = some w ∧ e.value env = some v ∧ o.Sees e.cType w v

/-- The condition for that. -/
def Observer.FineAt (env : Var → ℤ) (o : Observer) (e : Expr) : Prop :=
  ∃ x v, e.over env = some x ∧ e.value env = some v ∧ o.Fine e.cType x v

/-- The register stands for the integer `x`, which has the low bits of the value `v`; a value of less
than 32 bits is the integer itself. -/
structure Stands (env : Var → ℤ) (e : Expr) (x v : ℤ) : Prop where
  /-- It is the integer of the expression. -/
  over_eq : e.over env = some x
  /-- The register has its low 64 bits. -/
  wide_eq : e.addType.wide env = some (BitVec.ofInt 64 x)
  /-- It agrees with the value in the bits of the type. -/
  low : (2 ^ e.cType.bits : ℤ) ∣ x - v
  /-- Below 32 bits it is the value. -/
  small : e.cType.size < 4 → x = v

variable {env : Var → ℤ} {e : Expr}

/-- Where the value itself is in the register. -/
lemma Stands.of_value (hover : e.over env = some v)
    (hwide : e.addType.wide env = some (BitVec.ofInt 64 v)) : Stands env e v v :=
  ⟨hover, hwide, by rw [sub_self]; exact dvd_zero _, fun _ => rfl⟩

/-- The integer has the low bits of the promoted value too. -/
lemma Stands.low_promote (h : Stands env e x v) : (2 ^ e.cType.promote.bits : ℤ) ∣ x - v := by
  by_cases hsmall : e.cType.size < 4
  · rw [h.small hsmall, sub_self]
    exact dvd_zero _
  have hself : e.cType.promote = e.cType := by
    revert hsmall
    cases e.cType <;> decide
  rw [hself]
  exact h.low

lemma not_ofInt (x : ℤ) : ~~~BitVec.ofInt 64 x = BitVec.ofInt 64 (-x - 1) := by
  rw [Int.sub_eq_add_neg, ofInt_add, ofInt_neg, neg_eq_not_add, add_assoc]
  exact (add_zero _).symm

lemma Ty.promote_large (t : Ty) : ¬ t.promote.size < 4 := by cases t <;> decide

/-- A unary operator that works on all bits. -/
lemma Stands.unary {e' : Expr} {f : ℤ → ℤ} (h : Stands env e x v)
    (hf : ∀ a b m : ℤ, m ∣ a - b → m ∣ f a - f b) (htype : e'.cType = e.cType.promote)
    (hover : e'.over env = some (f x))
    (hwide : e'.addType.wide env = some (BitVec.ofInt 64 (f x))) :
    Stands env e' (f x) (e.cType.promote.wrap (f v)) := by
  refine ⟨hover, hwide, ?_, fun hsmall => ?_⟩
  · rw [htype]
    have hwrap := e.cType.promote.dvd_wrap_sub e.cType.promote_ne_bool (f v)
    have hlow := hf x v _ h.low_promote
    have hsum := dvd_sub hlow hwrap
    rwa [show f x - f v - (e.cType.promote.wrap (f v) - f v) =
      f x - e.cType.promote.wrap (f v) by ring] at hsum
  · rw [htype] at hsmall
    exact absurd hsmall e.cType.promote_large

/-- A converted operand holds its converted value. -/
lemma Observer.Right.cast (h : (Observer.converted t).Right env e) (hv : e.value env = some v) :
    (Expr.cast t e.addType).wide env = some (BitVec.ofInt 64 (t.wrap v)) := by
  obtain ⟨w, v', hw, hv', hsees⟩ := h
  obtain rfl : v = v' := mem_unique hv hv'
  rw [Expr.wide, hw, map_some, Expr.type_addType]
  exact congrArg some hsees

/-- Clearing the upper half leaves the remainder by `2 ^ 32`. -/
lemma clear_ofInt (v : ℤ) : (BitVec.ofInt 32 v).setWidth 64 = BitVec.ofInt 64 (v % 2 ^ 32) := by
  have hsame : BitVec.ofInt 32 v = BitVec.ofInt 32 (v % 2 ^ 32) := by
    rw [ofInt_eq_iff]
    exact dvd_self_sub_emod
  rw [hsame]
  exact setWidth_ofInt (emod_nonneg v (by norm_num)) (emod_lt_of_pos v (by norm_num))
    (by norm_num)

/-- The result of an operator in a register: cleared above if it has 32 bits. -/
lemma opWide_eq (hop : op.compares = false) {operand : Ty} (ht : t.size = 4 ∨ t.size = 8)
    (hlong : operand.size = 8 ↔ t.size = 8) {a b : BitVec 64}
    (hbits : opBits op t.isUnsigned (a.setWidth t.bits) (b.setWidth t.bits) b.toNat =
      some (BitVec.ofInt t.bits v)) :
    opWide op operand t a b = some (BitVec.ofInt 64 (if t.size = 4 then v % 2 ^ 32 else v)) := by
  rw [opWide, hop, if_neg Bool.false_ne_true]
  rcases ht with h4 | h8
  · have hwidth : t.bits = 32 := by rw [Ty.bits, h4]
    rw [hwidth] at hbits
    rw [if_neg (by rw [hlong]; omega), if_pos h4, hbits, map_some, clear_ofInt]
  · have hwidth : t.bits = 64 := by rw [Ty.bits, h8]
    rw [hwidth, setWidth_eq, setWidth_eq] at hbits
    rw [if_pos (hlong.mpr h8), if_neg (by omega), hbits]

/-- What the register stands for after an operator that does not compare. -/
lemma Stands.of_operator (hop : op.compares = false)
    (hv : (Expr.bin op lhs rhs).value env = some v)
    (hwide : (Expr.bin op lhs rhs).addType.wide env = some (BitVec.ofInt 64
      (if (Expr.bin op lhs rhs).cType.size = 4 then v % 2 ^ 32 else v)))
    (hsize : (Expr.bin op lhs rhs).cType.size = 4 ∨ (Expr.bin op lhs rhs).cType.size = 8) :
    Stands env (.bin op lhs rhs)
      (if (Expr.bin op lhs rhs).cType.size = 4 then v % 2 ^ 32 else v) v := by
  refine ⟨?_, hwide, ?_, fun hsmall => ?_⟩
  · rw [Expr.over]
    by_cases h4 : (Expr.bin op lhs rhs).cType.size = 4
    · rw [if_pos ⟨hop, h4⟩, if_pos h4, hv, map_some]
    · rw [if_neg fun h => h4 h.2, if_neg h4, hv]
  · by_cases h4 : (Expr.bin op lhs rhs).cType.size = 4
    · rw [if_pos h4, Ty.bits, h4]
      exact dvd_emod_sub_self
    · rw [if_neg h4, sub_self]
      exact dvd_zero _
  · rcases hsize with h | h <;> omega

/-- An operator whose operands are brought to one type. -/
lemma stands_converted (hconv : op.converts = true) (hl : lhs.value env = some l)
    (hr : rhs.value env = some r) (hv : (Expr.bin op lhs rhs).value env = some v)
    (hleft : (Observer.converted (lhs.cType.usual rhs.cType)).Right env lhs)
    (hright : (Observer.converted (lhs.cType.usual rhs.cType)).Right env rhs) :
    ∃ x, Stands env (.bin op lhs rhs) x v := by
  have hval : op.value (lhs.cType.usual rhs.cType) ((lhs.cType.usual rhs.cType).wrap l)
      ((lhs.cType.usual rhs.cType).wrap r) = some v := by
    rw [Expr.value, hl, hr, bind_some, bind_some, if_pos hconv] at hv
    exact hv
  have htree : (Expr.bin op lhs rhs).addType = Expr.bin op
      (Expr.cast (lhs.cType.usual rhs.cType) lhs.addType)
      (Expr.cast (lhs.cType.usual rhs.cType) rhs.addType) := by
    rw [Expr.addType, if_pos hconv, Expr.type_addType, Expr.type_addType, commonType_eq_usual]
  have hwl := hleft.cast hl
  have hwr := hright.cast hr
  generalize ht : lhs.cType.usual rhs.cType = t at *
  have hsize : t.size = 4 ∨ t.size = 8 := ht ▸ lhs.cType.usual_size rhs.cType
  have hwide : (Expr.bin op lhs rhs).addType.wide env = opWide op t
      (Expr.bin op (Expr.cast t lhs.addType) (Expr.cast t rhs.addType)).type
      (BitVec.ofInt 64 (t.wrap l)) (BitVec.ofInt 64 (t.wrap r)) := by
    rw [htree, Expr.wide, hwr, hwl]
    rfl
  cases hop : op.compares with
  | true =>
    -- a comparison leaves zero or one
    have hnot : ¬ (op.compares = false ∧ (Expr.bin op lhs rhs).cType.size = 4) := by
      rintro ⟨hfalse, -⟩
      rw [hop] at hfalse
      exact Bool.noConfusion hfalse
    refine ⟨v, .of_value ?_ ?_⟩
    · rw [Expr.over, if_neg hnot, hv]
    · rw [hwide, opWide, hop, if_pos rfl, compare_value hop (t.wrap_holds l) (t.wrap_holds r) hval]
  | false =>
    have htype : (Expr.bin op lhs rhs).cType = t := by
      rw [Expr.cType, hop, if_neg Bool.false_ne_true, if_pos hconv, ht]
    have hresult : (Expr.bin op (Expr.cast t lhs.addType) (Expr.cast t rhs.addType)).type = t := by
      rw [Expr.type, hop, if_neg Bool.false_ne_true, if_pos hconv]
      rfl
    refine ⟨_, .of_operator hop hv ?_ (by rw [htype]; exact hsize)⟩
    rw [hwide, hresult, htype]
    refine opWide_eq hop hsize Iff.rfl ?_
    rw [narrow_ofInt t.bits_le, narrow_ofInt t.bits_le]
    refine opBits_eq hsize hop (t.wrap_holds l) (fun _ => t.wrap_holds r) (fun h0 h1 => ?_) hval
    -- no operator that converts looks at the count, but it is right for those too
    have hcount : ((BitVec.ofInt 64 (t.wrap r)).toNat : ℤ) = t.wrap r := by
      have hbits : (t.bits : ℤ) ≤ 64 := by exact_mod_cast t.bits_le
      exact toNat_wide (t := .ulong) rfl ⟨h0, by omega⟩
    rw [show (BitVec.ofInt 64 (t.wrap r)).toNat = (t.wrap r).toNat by omega]
    exact Nat.mod_eq_of_lt (by omega)

/-- A count below the width is found in the low bits of the register. -/
lemma Stands.count (h : Stands env e x v) (h0 : 0 ≤ v) (h1 : v < t.bits)
    (ht : t.size = 4 ∨ t.size = 8) :
    (BitVec.ofInt 64 x).toNat % t.bits = v.toNat := by
  have hdvd : (64 : ℤ) ∣ x - v := by
    by_cases hsmall : e.cType.size < 4
    · rw [h.small hsmall, sub_self]
      exact dvd_zero _
    · refine dvd_trans ?_ h.low
      revert hsmall
      cases e.cType <;> decide
  rw [toNat_ofInt]
  push_cast
  rcases ht with h4 | h8
  · have hbits : t.bits = 32 := by rw [Ty.bits, h4]
    rw [hbits] at h1 ⊢
    omega
  · have hbits : t.bits = 64 := by rw [Ty.bits, h8]
    rw [hbits] at h1 ⊢
    omega

/-- A shift, whose operands are taken as they are. -/
lemma stands_shift (hconv : op.converts = false) (hl : lhs.value env = some l)
    (hr : rhs.value env = some r) (hholds : lhs.cType.Holds l)
    (hv : (Expr.bin op lhs rhs).value env = some v) (hleft : Stands env lhs x l)
    (hright : Stands env rhs y r) :
    ∃ x, Stands env (.bin op lhs rhs) x v := by
  have hop : op.compares = false := by cases op <;> first | rfl | cases hconv
  have hnot : ¬ op.converts = true := by rw [hconv]; exact Bool.false_ne_true
  have hval : op.value lhs.cType.promote l r = some v := by
    rw [Expr.value, hl, hr, bind_some, bind_some, if_neg hnot] at hv
    exact hv
  have htree : (Expr.bin op lhs rhs).addType = Expr.bin op lhs.addType rhs.addType := by
    rw [Expr.addType, if_neg hnot]
  have htype : (Expr.bin op lhs rhs).cType = lhs.cType.promote := by
    rw [Expr.cType, hop, if_neg Bool.false_ne_true, if_neg hnot]
  have hresult : (Expr.bin op lhs.addType rhs.addType).type = lhs.cType.promote := by
    rw [← htree, Expr.type_addType, htype]
  have hsize := lhs.cType.promote_size
  have hlong : lhs.cType.size = 8 ↔ lhs.cType.promote.size = 8 := by
    cases lhs.cType <;> decide
  refine ⟨_, .of_operator hop hv ?_ (by rw [htype]; exact hsize)⟩
  rw [htree, Expr.wide, hright.wide_eq, bind_some, hleft.wide_eq, bind_some, hresult,
    htype, Expr.type_addType]
  refine opWide_eq hop hsize hlong ?_
  rw [narrow_ofInt lhs.cType.promote.bits_le, narrow_ofInt lhs.cType.promote.bits_le,
    ofInt_eq_iff.mpr hleft.low_promote]
  -- a shift does not look at its right operand but for the count
  have hsame : ∀ a b b' : BitVec lhs.cType.promote.bits, ∀ count,
      opBits op lhs.cType.promote.isUnsigned a b count =
        opBits op lhs.cType.promote.isUnsigned a b' count := by
    intro a b b' count
    cases op <;> first | rfl | cases hconv
  rw [hsame _ _ (BitVec.ofInt lhs.cType.promote.bits r)]
  refine opBits_eq hsize hop hholds.promote (fun h => absurd h hnot) (fun h0 h1 => ?_) hval
  exact hright.count h0 h1 hsize

/-- Zero and one in a register. -/
lemma truth_eq_ofInt (p : Prop) [Decidable p] :
    truth p = BitVec.ofInt 64 (if p then 1 else 0) := by
  rw [truth]
  split <;> rfl

/-- A tested operand is zero if its value is. -/
lemma Observer.Right.zero_iff (h : Observer.tested.Right env e) (hv : e.value env = some v) :
    ∃ w, e.addType.wide env = some w ∧ (w = 0 ↔ v = 0) := by
  obtain ⟨w, v', hw, hv', hsees⟩ := h
  obtain rfl : v = v' := mem_unique hv hv'
  exact ⟨w, hw, hsees⟩

/-- As long as every use sees its value, the register stands for `over`. -/
theorem wide_eq_over (henv : ∀ x : Var, x.type.Holds (env x)) (hconst : e.Constants)
    (hv : e.value env = some v)
    (hall : Everywhere (Observer.Right env) env e) : ∃ x, Stands env e x v := by
  -- by induction on the tree; only the operands that are evaluated have a value
  induction e generalizing v with
  | num w t =>
    cases hv
    refine ⟨_, .of_value rfl (congrArg some ?_)⟩
    rcases hconst with ⟨rfl, -⟩ | ⟨-, hholds, -⟩
    · exact (Ty.ofInt_wrap (t := .ulong) (by decide) w).symm
    · rw [Ty.wrap_eq_self hholds]
  | var x =>
    cases hv
    exact ⟨_, .of_value rfl rfl⟩
  | cast t e ih =>
    obtain ⟨w, hw, rfl⟩ := map_eq_some_iff.mp hv
    exact ⟨_, .of_value hv (hall.2.cast hw)⟩
  | neg e ih =>
    obtain ⟨w, hw, rfl⟩ := map_eq_some_iff.mp hv
    obtain ⟨x, hx⟩ := ih hconst hw hall
    refine ⟨-x, hx.unary (f := (-·)) (fun a b m h => ?_) rfl ?_ ?_⟩
    · rw [show -a - -b = -(a - b) by ring]
      exact dvd_neg.mpr h
    · rw [Expr.over, hx.over_eq, map_some]
    · rw [Expr.addType, Expr.wide, hx.wide_eq, map_some, ofInt_neg]
  | bitnot e ih =>
    obtain ⟨w, hw, rfl⟩ := map_eq_some_iff.mp hv
    obtain ⟨x, hx⟩ := ih hconst hw hall
    refine ⟨-x - 1, hx.unary (f := (-· - 1)) (fun a b m h => ?_) rfl ?_ ?_⟩
    · rw [show -a - 1 - (-b - 1) = -(a - b) by ring]
      exact dvd_neg.mpr h
    · rw [Expr.over, hx.over_eq, map_some]
    · rw [Expr.addType, Expr.wide, hx.wide_eq, map_some, not_ofInt]
  | not e ih =>
    obtain ⟨w, hw, rfl⟩ := map_eq_some_iff.mp hv
    obtain ⟨x, hx, hzero⟩ := hall.2.zero_iff hw
    refine ⟨_, .of_value hv ?_⟩
    rw [Expr.addType, Expr.wide, hx, map_some, truth_congr hzero, truth_eq_ofInt]
  | bin op lhs rhs ihl ihr =>
    obtain ⟨l, hl, hrest⟩ := bind_eq_some_iff.mp hv
    obtain ⟨r, hr, -⟩ := bind_eq_some_iff.mp hrest
    cases hconv : op.converts with
    | true =>
      obtain ⟨hleft, hright⟩ := hall.2.2 hconv
      exact stands_converted hconv hl hr hv hleft hright
    | false =>
      obtain ⟨x, hx⟩ := ihl hconst.1 hl hall.1
      obtain ⟨y, hy⟩ := ihr hconst.2 hr hall.2.1
      exact stands_shift hconv hl hr (Expr.value_holds henv hl) hv hx hy
  | and lhs rhs ihl ihr =>
    obtain ⟨l, hl, hrest⟩ := bind_eq_some_iff.mp hv
    obtain ⟨x, hx, hzero⟩ := hall.2.1.zero_iff hl
    refine ⟨v, .of_value hv ?_⟩
    rw [Expr.addType, Expr.wide, hx, bind_some]
    by_cases hl0 : l = 0
    · rw [if_pos hl0] at hrest
      cases hrest
      rw [if_pos (hzero.mpr hl0)]
      rfl
    · rw [if_neg hl0] at hrest
      obtain ⟨r, hr, rfl⟩ := map_eq_some_iff.mp hrest
      obtain ⟨-, htest⟩ := hall.2.2 (by rw [hl]; exact fun h => hl0 (some.inj h))
      obtain ⟨y, hy, hzero'⟩ := htest.zero_iff hr
      rw [if_neg (mt hzero.mp hl0), hy, map_some, truth_congr (not_congr hzero'),
        truth_eq_ofInt, ite_not]
  | or lhs rhs ihl ihr =>
    obtain ⟨l, hl, hrest⟩ := bind_eq_some_iff.mp hv
    obtain ⟨x, hx, hzero⟩ := hall.2.1.zero_iff hl
    refine ⟨v, .of_value hv ?_⟩
    rw [Expr.addType, Expr.wide, hx, bind_some]
    by_cases hl0 : l = 0
    · rw [if_pos hl0] at hrest
      obtain ⟨r, hr, rfl⟩ := map_eq_some_iff.mp hrest
      obtain ⟨-, htest⟩ := hall.2.2 (by rw [hl, hl0])
      obtain ⟨y, hy, hzero'⟩ := htest.zero_iff hr
      rw [if_pos (hzero.mpr hl0), hy, map_some, truth_congr (not_congr hzero'),
        truth_eq_ofInt, ite_not]
    · rw [if_neg hl0] at hrest
      cases hrest
      rw [if_neg (mt hzero.mp hl0)]
      rfl
  | cond c then_ else_ ihc iht ihe =>
    obtain ⟨w, hw, hrest⟩ := bind_eq_some_iff.mp hv
    obtain ⟨x, hx, hzero⟩ := hall.2.1.zero_iff hw
    refine ⟨v, .of_value hv ?_⟩
    rw [Expr.addType, Expr.wide, hx, bind_some, Expr.type_addType, Expr.type_addType,
      commonType_eq_usual]
    by_cases hw0 : w = 0
    · rw [if_pos hw0] at hrest
      obtain ⟨r, hr, rfl⟩ := map_eq_some_iff.mp hrest
      rw [if_pos (hzero.mpr hw0)]
      exact (hall.2.2.1 (by rw [hw, hw0])).2.cast hr
    · rw [if_neg hw0] at hrest
      obtain ⟨r, hr, rfl⟩ := map_eq_some_iff.mp hrest
      rw [if_neg (mt hzero.mp hw0)]
      exact (hall.2.2.2 (by rw [hw]; exact fun h => hw0 (some.inj h))).2.cast hr

/-! ## One use -/

/-- The register is zero if its integer is a multiple of `2 ^ 64`. -/
lemma ofInt_eq_zero (x : ℤ) : BitVec.ofInt 64 x = 0 ↔ (2 ^ 64 : ℤ) ∣ x := by
  have hzero : (0 : BitVec 64) = BitVec.ofInt 64 0 := rfl
  rw [hzero, ofInt_eq_iff, sub_zero]

/-- A conversion to less than 64 bits needs the low bits only. -/
lemma Stands.narrowed (h : Stands env e x v) (hbool : t ≠ .bool) (hsize : t.size < 8) :
    extended t.size t.isUnsigned (BitVec.ofInt 64 x) = BitVec.ofInt 64 (t.wrap v) := by
  refine extended_eq (t.wrap_holds v) ?_
  rw [narrow_ofInt t.bits_le, Ty.ofInt_wrap hbool, ofInt_eq_iff]
  refine dvd_trans ?_ h.low_promote
  -- the promoted type has 32 bits at least
  revert hsize
  cases t <;> cases e.cType <;> decide

/-- A conversion from `int` to 64 bits brings the sign in. -/
lemma Stands.signed (h : Stands env e x v) (hint : e.cType = .int) (hv : e.cType.Holds v) :
    extended 4 false (BitVec.ofInt 64 x) = BitVec.ofInt 64 v := by
  have hlow := h.low
  rw [hint] at hlow hv
  refine extended_eq (t := .int) hv ?_
  rw [narrow_ofInt Ty.int.bits_le, ofInt_eq_iff]
  exact hlow

/-- A conversion of 64 bits keeps all of them. -/
lemma Ty.ofInt_wrap_wide (hsize : t.size = 8) (v : ℤ) :
    BitVec.ofInt 64 (t.wrap v) = BitVec.ofInt 64 v := by
  have hbits : t.bits = 64 := by rw [Ty.bits, hsize]
  have hwrap := t.ofInt_wrap (ne_bool_of_size (.inr hsize)) v
  rwa [hbits] at hwrap

/-- A conversion does what C says if its condition holds. -/
lemma Stands.converted_iff (h : Stands env e x v) (hv : e.cType.Holds v) (t : Ty) :
    castWide e.cType t (BitVec.ofInt 64 x) = BitVec.ofInt 64 (t.wrap v) ↔
      (Observer.converted t).Fine e.cType x v := by
  rw [Observer.Fine, castWide]
  by_cases hbool : t = .bool
  · -- both sides are zero or one
    rw [if_pos hbool, if_pos hbool, hbool, Ty.wrap, if_pos rfl, truth, ← ofInt_eq_zero]
    by_cases hx : BitVec.ofInt 64 x = 0 <;> by_cases h0 : v = 0 <;> simp [hx, h0]
  rw [if_neg hbool, if_neg hbool]
  by_cases hsmall : t.size < 8
  · have hnot : ¬ (t.size = 8 ∧ e.cType ≠ .int) := fun hc => by omega
    rw [if_pos hsmall, if_neg hnot]
    exact iff_of_true (h.narrowed hbool hsmall) trivial
  have h8 : t.size = 8 := by
    revert hsmall
    cases t <;> decide
  have hsigned : e.cType.size = 4 ∧ e.cType.isUnsigned = false ↔ e.cType = .int := by
    cases e.cType <;> decide
  rw [if_neg hsmall]
  by_cases hint : e.cType = .int
  · rw [if_pos (hsigned.mpr hint), if_neg fun hc => hc.2 hint]
    refine iff_of_true ?_ trivial
    rw [h.signed hint hv, Ty.ofInt_wrap_wide h8]
  · rw [if_neg (mt hsigned.mp hint), if_pos ⟨h8, hint⟩, Ty.ofInt_wrap_wide h8, ofInt_eq_iff]

/-- A use sees the value of an expression exactly if its condition holds. -/
theorem sees_iff_fine (h : Stands env e x v) (hv : e.cType.Holds v) (o : Observer) :
    o.Sees e.cType (BitVec.ofInt 64 x) v ↔ o.Fine e.cType x v := by
  cases o with
  | converted t => exact h.converted_iff hv t
  | stored x => exact h.converted_iff hv x.type
  | tested => rw [Observer.Sees, Observer.Fine, ofInt_eq_zero]
  | matched c => rw [Observer.Sees, Observer.Fine, ofInt_eq_iff]

/-- The same for a use within a tree. -/
lemma Observer.right_iff_fineAt (henv : ∀ x : Var, x.type.Holds (env x)) (hconst : e.Constants)
    (hv : e.value env = some v) (hall : Everywhere (Observer.Right env) env e) (o : Observer) :
    o.Right env e ↔ o.FineAt env e := by
  obtain ⟨x, hx⟩ := wide_eq_over henv hconst hv hall
  have hiff := sees_iff_fine hx (Expr.value_holds henv hv) o
  constructor
  · rintro ⟨w, v', hw, hv', hsees⟩
    obtain rfl : v = v' := mem_unique hv hv'
    obtain rfl : BitVec.ofInt 64 x = w := mem_unique hx.wide_eq hw
    exact ⟨x, v, hx.over_eq, hv, hiff.mp hsees⟩
  · rintro ⟨x', v', hover, hv', hfine⟩
    obtain rfl : v = v' := mem_unique hv hv'
    obtain rfl : x = x' := mem_unique hx.over_eq hover
    exact ⟨_, v, hx.wide_eq, hv, hiff.mpr hfine⟩

/-! ## Every use of a tree -/

/-- The operands of a node. -/
def Expr.operands : Expr → List Expr
  | num _ _ | var _ => []
  | cast _ e | neg e | bitnot e | not e => [e]
  | bin _ lhs rhs | and lhs rhs | or lhs rhs => [lhs, rhs]
  | cond c then_ else_ => [c, then_, else_]

/-- The uses that occur within a tree. -/
def Observer.Inner : Observer → Prop
  | converted _ | tested => True
  | stored _ | matched _ => False

/-- A property that is the same as `Right` for a use whose operand has only right uses inside holds
everywhere if `Right` does. `K` is what is known of a tree and its operands. -/
lemma everywhere_iff_right {P : Observer → Expr → Prop} {K : Expr → Prop}
    (hK : ∀ e, K e → ∀ e' ∈ e.operands, K e')
    (H : ∀ o e v, Observer.Inner o → K e → e.value env = some v →
      Everywhere (Observer.Right env) env e → (P o e ↔ o.Right env e)) (he : K e)
    (hv : e.value env = some v) :
    Everywhere P env e ↔ Everywhere (Observer.Right env) env e := by
  have huse : ∀ {o e w}, Observer.Inner o → K e → e.value env = some w →
      (∀ {w}, K e → e.value env = some w →
        (Everywhere P env e ↔ Everywhere (Observer.Right env) env e)) →
      (Everywhere P env e ∧ P o e ↔ Everywhere (Observer.Right env) env e ∧ o.Right env e) := by
    intro o e w ho he hw ih
    rw [ih he hw]
    exact and_congr_right fun hall => H o e w ho he hw hall
  -- by induction on the tree, along the operands that are evaluated
  induction e generalizing v with
  | num w t | var x => exact Iff.rfl
  | cast t e ih | not e ih =>
    obtain ⟨w, hw, -⟩ := map_eq_some_iff.mp hv
    exact huse trivial (hK _ he e mem_cons_self) hw ih
  | neg e ih | bitnot e ih =>
    obtain ⟨w, hw, -⟩ := map_eq_some_iff.mp hv
    exact ih (hK _ he e mem_cons_self) hw
  | bin op lhs rhs ihl ihr =>
    obtain ⟨l, hl, hrest⟩ := bind_eq_some_iff.mp hv
    obtain ⟨r, hr, -⟩ := bind_eq_some_iff.mp hrest
    have hsubl := hK _ he lhs mem_cons_self
    have hsubr := hK _ he rhs (mem_cons_of_mem _ mem_cons_self)
    rw [Everywhere, Everywhere, propext (ihl hsubl hl), propext (ihr hsubr hr)]
    refine and_congr_right fun halll => and_congr_right fun hallr => imp_congr_right fun _ => ?_
    exact and_congr (H _ lhs l trivial hsubl hl halll) (H _ rhs r trivial hsubr hr hallr)
  | and lhs rhs ihl ihr | or lhs rhs ihl ihr =>
    obtain ⟨l, hl, hrest⟩ := bind_eq_some_iff.mp hv
    have hsubr := hK _ he rhs (mem_cons_of_mem _ mem_cons_self)
    rw [Everywhere, Everywhere, ← and_assoc, ← and_assoc]
    refine and_congr (huse trivial (hK _ he lhs mem_cons_self) hl ihl)
      (imp_congr_right fun hl' => ?_)
    simp only [hl, ne_eq, some.injEq] at hl'
    simp only [hl', if_true, if_false] at hrest
    obtain ⟨r, hr, -⟩ := map_eq_some_iff.mp hrest
    exact huse trivial hsubr hr ihr
  | cond c then_ else_ ihc iht ihe =>
    obtain ⟨w, hw, hrest⟩ := bind_eq_some_iff.mp hv
    have htest := huse (o := .tested) trivial (hK _ he c mem_cons_self) hw ihc
    refine (and_assoc.symm.trans (and_congr htest (and_congr (imp_congr_right fun heq => ?_)
      (imp_congr_right fun hne => ?_)))).trans and_assoc
    · rw [if_pos (mem_unique hw heq)] at hrest
      obtain ⟨r, hr, -⟩ := map_eq_some_iff.mp hrest
      exact huse trivial (hK _ he else_
        (mem_cons_of_mem _ (mem_cons_of_mem _ mem_cons_self))) hr ihe
    · rw [if_neg fun h => hne (by rw [hw, h])] at hrest
      obtain ⟨r, hr, -⟩ := map_eq_some_iff.mp hrest
      exact huse trivial (hK _ he then_ (mem_cons_of_mem _ mem_cons_self)) hr iht

/-- The constants of an operand are constants of the parser. -/
lemma Expr.Constants.operands (h : e.Constants) : ∀ e' ∈ e.operands, e'.Constants := by
  intro e' he'
  cases e with
  | num w t | var x => cases he'
  | cast t e | neg e | bitnot e | not e =>
    rw [mem_singleton.mp he']
    exact h
  | bin op lhs rhs | and lhs rhs | or lhs rhs =>
    rcases mem_pair.mp he' with rfl | rfl
    · exact h.1
    · exact h.2
  | cond c then_ else_ =>
    rcases mem_cons.mp he' with rfl | he'
    · exact h.1
    · rcases mem_pair.mp he' with rfl | rfl
      · exact h.2.1
      · exact h.2.2

/-- Every use of a tree sees its value exactly if every use meets its condition. -/
theorem everywhere_right_iff (henv : ∀ x : Var, x.type.Holds (env x)) (hconst : e.Constants)
    (hv : e.value env = some v) :
    Everywhere (Observer.Right env) env e ↔ Everywhere (Observer.FineAt env) env e := by
  refine (everywhere_iff_right (K := Expr.Constants) (fun _ h => h.operands) ?_ hconst hv).symm
  intro o e v _ hconst hv hall
  exact (Observer.right_iff_fineAt henv hconst hv hall o).symm

end Wos.Wcc
