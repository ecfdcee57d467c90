import Wos.Wcc.Observe

/-!
# The uses of an expression, run

The code of an expression is followed by the code of its use: a conversion, a store, a test or the
comparison with a case. It is run from a state whose frame has the variables, and the outcome is
compared with what C says.

The labels in the code of an expression lie between the counter before it and after it, so none
stands twice. A program that is such a piece alone stops at its end, in one state only.

## Main definitions

* `Observer.Outcome`: what a use leaves, if it is what C says;
* `Observer.Shown`: running an expression and its use ends with that outcome;
* `Use`, `Use.code`, `Use.Meets`: the statements that look at a value, with their jumps;
* `Var.prefixed`, `Var.postfixValue`: increments and decrements.

## Main results

* `gen_labels`: the labels of an expression;
* `Observer.shown_iff_right`: the run of one use;
* `everywhere_shown_iff`: every use of a tree, and the last one;
* `Use.runs`: a statement, in any program;
* `steps_agree_iff`: where increments agree with compound assignment.
-/

namespace Wos.Wcc

open List Relation.ReflTransGen Option Int

/-! ## Labels -/

/-- The labels of some code are those of an interval of the counter, each at most once. -/
structure Between (code : List Instr) (lo hi : ℕ) : Prop where
  le : lo ≤ hi
  /-- Every label is in the interval. -/
  mem : ∀ id ∈ labelsOf code, lo < id ∧ id ≤ hi
  /-- No label twice. -/
  nodup : (labelsOf code).Nodup

namespace Between

variable {a b : List Instr} {lo mid hi : ℕ}

/-- Code without labels. -/
lemma of_nil (n : ℕ) (h : labelsOf a = []) : Between a n n := by
  refine ⟨le_rfl, fun id hid => ?_, ?_⟩
  · rw [h] at hid
    cases hid
  · rw [h]
    exact nodup_nil

/-- Two pieces with intervals that follow each other. -/
lemma append (ha : Between a lo mid) (hb : Between b mid hi) : Between (a ++ b) lo hi := by
  refine ⟨ha.le.trans hb.le, fun id hid => ?_, ?_⟩
  · rw [labelsOf_append, mem_append] at hid
    rcases hid with hid | hid
    · obtain ⟨h0, h1⟩ := ha.mem id hid
      exact ⟨h0, h1.trans hb.le⟩
    · obtain ⟨h0, h1⟩ := hb.mem id hid
      exact ⟨ha.le.trans_lt h0, h1⟩
  · rw [labelsOf_append, nodup_append]
    refine ⟨ha.nodup, hb.nodup, fun id hid id' hid' heq => ?_⟩
    have hle := (ha.mem id hid).2
    have hlt := (hb.mem id' hid').1
    omega

/-- Code without labels before or after. -/
lemma append_nil (ha : Between a lo hi) (hb : labelsOf b = []) : Between (a ++ b) lo hi :=
  ha.append (of_nil hi hb)

/-- The two labels of a short-circuit operator come before those of its operands. -/
lemma with_labels (ha : Between a (lo + 2) hi)
    (hb : (labelsOf b).Perm ((lo + 1) :: (lo + 2) :: labelsOf a)) : Between b lo hi := by
  have hle := ha.le
  refine ⟨by omega, fun id hid => ?_, ?_⟩
  · rcases mem_cons.mp (hb.mem_iff.mp hid) with rfl | hid
    · omega
    rcases mem_cons.mp hid with rfl | hid
    · omega
    · obtain ⟨h0, h1⟩ := ha.mem id hid
      omega
  · rw [hb.nodup_iff, nodup_cons, nodup_cons, mem_cons, not_or]
    refine ⟨⟨by omega, fun hmem => ?_⟩, fun hmem => ?_, ha.nodup⟩
    · have hlt := (ha.mem _ hmem).1
      omega
    · have hlt := (ha.mem _ hmem).1
      omega

end Between

lemma labelsOf_loadImmediate (v : ℤ) (rest : List Instr) :
    labelsOf (loadImmediate v :: rest) = labelsOf rest := by
  rw [loadImmediate]
  split
  next => rfl
  next => split <;> rfl

lemma labelsOf_castRax (source target : Ty) : labelsOf (castRax source target) = [] := by
  rw [castRax]
  split
  next => rfl
  next =>
    split
    next => rfl
    next => split <;> rfl

lemma labelsOf_opCode (op : BinOp) (operand result : Ty) :
    labelsOf (opCode op operand result) = [] := by
  cases op with
  | div | mod =>
    rw [opCode]
    split <;> rfl
  | _ => rfl

/-- The labels of an expression are numbers of the counter from before it to after it. -/
theorem gen_labels (e : Expr) (n : ℕ) : Between (gen e n).1 n (gen e n).2 := by
  induction e generalizing n with
  | num v t => exact .of_nil n (labelsOf_loadImmediate v [])
  | var x => exact .of_nil n rfl
  | cast t e ih => exact (ih n).append_nil (labelsOf_castRax e.type t)
  | neg e ih | bitnot e ih | not e ih => exact (ih n).append_nil rfl
  | bin op lhs rhs ihl ihr =>
    have hboth := ((ihr n).append_nil (b := [.push]) rfl).append (ihl (gen rhs n).2)
    exact (hboth.append_nil (b := [.pop .rdi]) rfl).append_nil (labelsOf_opCode op _ _)
  | and lhs rhs ihl ihr | or lhs rhs ihl ihr =>
    refine ((ihl (n + 2)).append (ihr _)).with_labels ?_
    -- the test between the operands has no labels, and the end has the two
    rw [gen, labelsOf_append, labelsOf_append, labelsOf_append, labelsOf_append]
    change (_ ++ [] ++ _ ++ [n + 1, n + 2]).Perm ([n + 1, n + 2] ++ _)
    rw [append_nil]
    exact perm_append_comm
  | cond c then_ else_ ihc iht ihe =>
    refine (((ihc (n + 2)).append (iht _)).append (ihe _)).with_labels ?_
    rw [gen]
    simp only [labelsOf_append, append_assoc]
    change (_ ++ ([] ++ (_ ++ ([n + 1] ++ (_ ++ [n + 2]))))).Perm ([n + 1] ++ ([n + 2] ++ (_ ++ _)))
    apply perm_iff_count.mpr
    intro id
    simp only [count_append, count_nil]
    omega

/-! ## Runs that stop -/

variable {s : State}

/-- A run that stops does so in one state. -/
lemma Steps.unique {code : List Instr} {t t' : State} (h : Steps code s t) (h' : Steps code s t')
    (hstop : step code t = none) (hstop' : step code t' = none) : t = t' := by
  induction h using head_induction_on with
  | refl =>
    rcases cases_head h' with rfl | ⟨u, hu, -⟩
    · rfl
    · rw [hstop] at hu
      cases hu
  | head hu _ ih =>
    rcases cases_head h' with rfl | ⟨u, hu', hrest⟩
    · rw [hstop'] at hu
      cases hu
    · -- both runs take the same step
      obtain rfl := mem_unique hu' hu
      exact ih hrest

/-- A program stops at its end. -/
lemma step_end {code : List Instr} {t : State} (h : t.pc = code.length) : step code t = none := by
  rw [step, h, getElem?_eq_none le_rfl]

/-! ## The code of a use -/

/-- What a use leaves behind, if it is what C says of the value `v`: a number in `rax`, the bytes of
a variable, or a flag. -/
def Observer.Outcome (source : Ty) (v : ℤ) (t : State) : Observer → Prop
  | converted target => t.reg .rax = BitVec.ofInt 64 (target.wrap v)
  | stored x =>
    readBytes t.mem (x.address t) x.type.size = (x.type.wrap v % 2 ^ x.type.bits).toNat
  | tested => t.flags.equal = decide (v = 0)
  | matched c => t.flags.equal = decide (source.promote.wrap c = v)

/-- A case that a `switch` compares with is a `long`. -/
def Observer.Long : Observer → Prop
  | matched c => Ty.long.Holds c
  | _ => True

variable {source : Ty} {o : Observer}

section Code

variable {code : List Instr} {s : State}

/-- A test leaves the flags and the value. -/
lemma tested_leaves {rest : List Instr} (h : CodeAt code s.pc (.test :: rest)) :
    ∃ t, Leaves code 1 (s.reg .rax) s t ∧ t.flags = compare (s.reg .rax) 0 :=
  ⟨_, h.leaves_flags trivial rfl, rfl⟩

/-- The comparison with a case leaves the flags and the value. -/
lemma matched_leaves {c : ℤ} (hc : Ty.long.Holds c) (hroom : 8 ≤ (s.reg .rsp).toNat)
    {rest : List Instr} (h : CodeAt code s.pc
      (.push :: loadImmediate c :: .mov .rdi .rax :: .pop .rax :: .cmp :: rest)) :
    ∃ t, Leaves code 5 (s.reg .rax) s t ∧ t.flags = compare (s.reg .rax) (BitVec.ofInt 64 c) := by
  -- the constant is loaded and moved while the value is on the stack
  obtain ⟨t, hrdi, -, hpc, hkept, hsteps⟩ := push_pop (r := .rax) (l := BitVec.ofInt 64 c)
    (p := [loadImmediate c, .mov .rdi .rax]) (Q := fun t => t.reg .rdi = BitVec.ofInt 64 c)
    hroom h fun s' hpc _ _ => by
      have hcode : CodeAt code s'.pc
          (loadImmediate c :: .mov .rdi .rax :: .pop .rax :: .cmp :: rest) := by
        rw [hpc]
        exact h.tail
      have h1 := loadImmediate_leaves hc hcode
      generalize (s'.set .rax (BitVec.ofInt 64 c)).next = s1 at h1
      have hcode1 : CodeAt code s1.pc (.mov .rdi .rax :: .pop .rax :: .cmp :: rest) := by
        rw [h1.pc_eq]
        exact hcode.tail
      have h2 := hcode1.leaves (t := s1.set .rdi (s1.reg .rax)) trivial rfl rfl rfl rfl rfl
      have hrax : (s1.set .rdi (s1.reg .rax)).reg .rax = BitVec.ofInt 64 c := h1.rax_eq
      rw [hrax] at h2
      exact ⟨_, h1.trans h2, h1.rax_eq⟩
  obtain ⟨u, hu1, hudi⟩ : ∃ u, Leaves code 4 (s.reg .rax) s u ∧ u.reg .rdi = BitVec.ofInt 64 c :=
    ⟨_, ⟨hsteps, hpc, rfl, rfl, ⟨hkept.rbp_eq, hkept.mem_eq⟩⟩, hrdi⟩
  have hcode : CodeAt code u.pc (.cmp :: rest) := by
    rw [hu1.pc_eq]
    exact h.tail.tail.tail.tail
  have h2 := hcode.leaves_flags (f := compare (u.reg .rax) (u.reg .rdi)) trivial rfl
  rw [hu1.rax_eq] at h2
  refine ⟨_, hu1.trans h2, ?_⟩
  rw [← hu1.rax_eq, ← hudi]
  rfl

/-- A store leaves the low bytes of the converted value in the variable. -/
lemma stored_steps {x : Var} (hroom : 8 ≤ (s.reg .rsp).toNat)
    (h : CodeAt code s.pc ((Observer.stored x).code source)) :
    ∃ t, Steps code s t ∧ t.pc = s.pc + ((Observer.stored x).code source).length ∧
      readBytes t.mem (x.address t) x.type.size =
        (castWide source x.type (s.reg .rax)).toNat % 2 ^ x.type.bits := by
  obtain ⟨t1, h1⟩ := castRax_leaves (s := s) source x.type h.left
  have hcode : CodeAt code t1.pc [.push, .leaFrame .rax (BitVec.ofInt 32 x.offset), .pop .rdi,
      .store x.type.size, .mov .rax .rdi] := by
    rw [h1.pc_eq]
    exact h.right
  -- the address is worked out while the value is on the stack
  obtain ⟨u, hu, hurdi⟩ := pushed_leaves (l := x.address t1)
    (p := [.leaFrame .rax (BitVec.ofInt 32 x.offset)]) (by rw [h1.rsp_eq]; exact hroom) hcode
    fun s' hpc hk _ => by
      have hplace : CodeAt code s'.pc [.leaFrame .rax (BitVec.ofInt 32 x.offset), .pop .rdi,
          .store x.type.size, .mov .rax .rdi] := by
        rw [hpc]
        exact hcode.tail
      have hlea := hplace.leaves_set (w := x.address s') trivial rfl
      rw [show x.address s' = x.address t1 by rw [Var.address, Var.address, hk.rbp_eq]] at hlea
      exact ⟨_, hlea⟩
  have hcode2 : CodeAt code u.pc [.store x.type.size, .mov .rax .rdi] := by
    rw [hu.pc_eq]
    exact hcode.tail.tail.tail
  obtain ⟨w, hstore, hwpc, hwreg, hwmem⟩ : ∃ w, Steps code u w ∧ w.pc = u.pc + 1 ∧ w.reg = u.reg ∧
      w.mem = writeBytes u.mem (u.reg .rax) (u.reg .rdi) x.type.size :=
    ⟨_, hcode2.step trivial rfl, rfl, rfl, rfl⟩
  have hcode3 : CodeAt code w.pc [.mov .rax .rdi] := by
    rw [hwpc]
    exact hcode2.tail
  have hmov := hcode3.step (t := w.set .rax (w.reg .rdi)) trivial rfl
  refine ⟨_, ((h1.steps.trans hu.steps).trans hstore).trans hmov, ?_, ?_⟩
  · change w.pc + 1 = _
    rw [hwpc, hu.pc_eq, h1.pc_eq, Observer.code, length_append]
    rfl
  have haddr : x.address (w.set .rax (w.reg .rdi)).next = x.address t1 := by
    change w.reg .rbp + _ = t1.reg .rbp + _
    rw [hwreg, hu.kept.rbp_eq]
  have hsize : x.type.size ≤ 8 := by cases x.type <;> decide
  rw [haddr, show (w.set .rax (w.reg .rdi)).next.mem = w.mem from rfl, hwmem, hu.rax_eq, hurdi,
    h1.rax_eq, readBytes_writeBytes _ _ _ hsize, Ty.bits, Nat.pow_mul]

/-- A conversion leaves a number of its type. -/
lemma castWide_holds (source t : Ty) (w : BitVec 64) :
    ∃ y, t.Holds y ∧ castWide source t w = BitVec.ofInt 64 y := by
  rw [castWide]
  by_cases hbool : t = .bool
  · refine ⟨if w ≠ 0 then 1 else 0, ?_, ?_⟩
    · rw [hbool]
      split <;> decide
    · rw [if_pos hbool, truth_eq_ofInt]
  rw [if_neg hbool]
  by_cases hsmall : t.size < 8
  · refine ⟨t.wrap w.toInt, t.wrap_holds _, ?_⟩
    rw [if_pos hsmall]
    refine extended_eq (t.wrap_holds _) ?_
    rw [Ty.ofInt_wrap hbool, ofInt_toInt_narrow]
  · have h8 : t.size = 8 := by
      revert hsmall
      cases t <;> decide
    rw [if_neg hsmall]
    generalize (if source.size = 4 ∧ source.isUnsigned = false then extended 4 false w else w) = w'
    refine ⟨t.wrap w'.toInt, t.wrap_holds _, ?_⟩
    rw [Ty.ofInt_wrap_wide h8, BitVec.ofInt_toInt]

/-- Numbers of one type are equal if their low bits are. -/
lemma Ty.Holds.eq_of_emod {t : Ty} {y z : ℤ} (hy : t.Holds y) (hz : t.Holds z)
    (h : y % 2 ^ t.bits = z % 2 ^ t.bits) : y = z := by
  cases t <;>
  · obtain ⟨hy0, hy1⟩ := hy
    obtain ⟨hz0, hz1⟩ := hz
    simp only [Ty.bits, Ty.size, Nat.reduceMul, reducePow] at h
    omega

/-- The low bits of a register. -/
lemma toNat_ofInt_mod {n : ℕ} (hn : n ≤ 64) (y : ℤ) :
    (BitVec.ofInt 64 y).toNat % 2 ^ n = (y % 2 ^ n).toNat := by
  rw [← BitVec.toNat_setWidth, narrow_ofInt hn, BitVec.toNat_ofInt]
  push_cast
  rfl

/-- The bytes of a converted value tell what it is. -/
lemma castWide_bytes (source t : Ty) (w : BitVec 64) (v : ℤ) :
    (castWide source t w).toNat % 2 ^ t.bits = (t.wrap v % 2 ^ t.bits).toNat ↔
      castWide source t w = BitVec.ofInt 64 (t.wrap v) := by
  obtain ⟨y, hy, heq⟩ := castWide_holds source t w
  have hpos : (0 : ℤ) < 2 ^ t.bits := by positivity
  rw [heq, toNat_ofInt_mod t.bits_le, ofInt_inj_of_holds hy (t.wrap_holds v)]
  constructor
  · intro h
    refine hy.eq_of_emod (t.wrap_holds v) ?_
    rw [← toNat_of_nonneg (emod_nonneg y hpos.ne'), h, toNat_of_nonneg (emod_nonneg _ hpos.ne')]
  · rintro rfl
    rfl

/-- The code of a use runs to its end, and its outcome is what C says if the use sees the value. -/
lemma Observer.code_runs (ho : o.Long) (hroom : 8 ≤ (s.reg .rsp).toNat)
    (h : CodeAt code s.pc (o.code source)) (v : ℤ) :
    ∃ t, Steps code s t ∧ t.pc = s.pc + (o.code source).length ∧
      (o.Outcome source v t ↔ o.Sees source (s.reg .rax) v) := by
  cases o with
  | converted target =>
    obtain ⟨t, ht⟩ := castRax_leaves source target h
    refine ⟨t, ht.steps, ht.pc_eq, ?_⟩
    rw [Outcome, Sees, ht.rax_eq]
  | stored x =>
    obtain ⟨t, hsteps, hpc, hbytes⟩ := stored_steps hroom h
    refine ⟨t, hsteps, hpc, ?_⟩
    rw [Outcome, Sees, hbytes, castWide_bytes]
  | tested =>
    obtain ⟨t, ht, hflags⟩ := tested_leaves h
    refine ⟨t, ht.steps, ht.pc_eq, ?_⟩
    rw [Outcome, Sees, hflags]
    exact decide_eq_decide
  | matched c =>
    obtain ⟨t, ht, hflags⟩ := matched_leaves ho hroom h
    refine ⟨t, ht.steps, ht.pc_eq, ?_⟩
    rw [Outcome, Sees, hflags]
    exact decide_eq_decide

end Code

/-! ## An expression and its use -/

/-- What is known where an expression is run: its constants are those of the parser, every variable
has a value of its type and stands in the frame, and the stack has room for one number more than the
expression pushes. -/
structure Ready (env : Var → ℤ) (s : State) (e : Expr) : Prop where
  constants : e.Constants
  values : ∀ x : Var, x.type.Holds (env x)
  frame : Frame env s e.vars
  room : 8 * (e.depth + 1) ≤ (s.reg .rsp).toNat

/-- The casts that `add_type` inserts read no variable and push nothing. -/
lemma Expr.addType_same (e : Expr) : e.addType.vars = e.vars ∧ e.addType.depth = e.depth := by
  induction e with
  | num v t | var x => exact ⟨rfl, rfl⟩
  | cast t e ih | neg e ih | bitnot e ih | not e ih => exact ih
  | bin op lhs rhs ihl ihr =>
    rw [addType]
    split
    all_goals
      simp only [vars, depth]
      rw [ihl.1, ihl.2, ihr.1, ihr.2]
      exact ⟨rfl, rfl⟩
  | and lhs rhs ihl ihr | or lhs rhs ihl ihr =>
    simp only [addType, vars, depth]
    rw [ihl.1, ihl.2, ihr.1, ihr.2]
    exact ⟨rfl, rfl⟩
  | cond c then_ else_ ihc iht ihe =>
    simp only [addType, vars, depth]
    rw [ihc.1, ihc.2, iht.1, iht.2, ihe.1, ihe.2]
    exact ⟨rfl, rfl⟩

variable {e : Expr}

/-- The constants of the parser are kept as `long`. -/
lemma Expr.Constants.longs (h : e.Constants) : e.addType.Longs := by
  induction e with
  | num v t =>
    rcases h with ⟨-, hlong⟩ | ⟨rfl | rfl | rfl, hholds, -⟩
    · exact hlong
    all_goals
      obtain ⟨h0, h1⟩ := hholds
      exact ⟨by omega, by omega⟩
  | var x => trivial
  | cast t e ih | neg e ih | bitnot e ih | not e ih => exact ih h
  | bin op lhs rhs ihl ihr =>
    rw [addType]
    split <;> exact ⟨ihl h.1, ihr h.2⟩
  | and lhs rhs ihl ihr | or lhs rhs ihl ihr => exact ⟨ihl h.1, ihr h.2⟩
  | cond c then_ else_ ihc iht ihe => exact ⟨ihc h.1, iht h.2.1, ihe h.2.2⟩

/-- An operand reads no other variables and pushes no more. -/
lemma Expr.of_mem_operands {e' : Expr} (h : e' ∈ e.operands) :
    e'.vars ⊆ e.vars ∧ e'.depth ≤ e.depth := by
  cases e with
  | num v t | var x => cases h
  | cast t e | neg e | bitnot e | not e =>
    rw [mem_singleton.mp h]
    exact ⟨List.Subset.refl _, le_rfl⟩
  | bin op lhs rhs | and lhs rhs | or lhs rhs =>
    rw [vars, depth]
    rcases mem_pair.mp h with rfl | rfl
    · exact ⟨subset_append_left _ _, by omega⟩
    · exact ⟨subset_append_right _ _, by omega⟩
  | cond c then_ else_ =>
    rw [vars, depth]
    rcases mem_cons.mp h with rfl | h
    · exact ⟨List.Subset.trans (subset_append_left _ _) (subset_append_left _ _), by omega⟩
    rcases mem_pair.mp h with rfl | rfl
    · exact ⟨List.Subset.trans (subset_append_right _ _) (subset_append_left _ _), by omega⟩
    · exact ⟨subset_append_right _ _, by omega⟩

variable {env : Var → ℤ}

/-- What is known of a tree is known of its operands. -/
lemma Ready.operands (h : Ready env s e) : ∀ e' ∈ e.operands, Ready env s e' := by
  intro e' he'
  obtain ⟨hvars, hdepth⟩ := Expr.of_mem_operands he'
  have hroom := h.room
  exact ⟨h.constants.operands e' he', h.values, fun x hx => h.frame x (hvars hx), by omega⟩

/-- The code of an expression, typed, and of its use. -/
def Observer.program (o : Observer) (e : Expr) (n : ℕ) : List Instr :=
  (gen e.addType n).1 ++ o.code e.addType.type

/-- Running an expression and its use ends with the outcome that C says, whatever the label counter
was before. -/
def Observer.Shown (env : Var → ℤ) (s : State) (o : Observer) (e : Expr) : Prop :=
  ∀ n, ∃ t v, e.value env = some v ∧ Steps (o.program e n) { s with pc := 0 } t ∧
    t.pc = (o.program e n).length ∧ o.Outcome e.cType v t

lemma Observer.labelsOf_code (o : Observer) (source : Ty) : labelsOf (o.code source) = [] := by
  cases o with
  | converted t => exact labelsOf_castRax source t
  | stored x =>
    rw [code, labelsOf_append, labelsOf_castRax]
    rfl
  | tested => rfl
  | matched c => exact labelsOf_loadImmediate c _

/-- The code of an expression in any program, when its uses inside see their values. -/
lemma Ready.gen_leaves (h : Ready env s e) {code : List Instr} (hnodup : (labelsOf code).Nodup)
    {n : ℕ} (hcode : CodeAt code s.pc (gen e.addType n).1) {w : BitVec 64}
    (hw : e.addType.wide env = some w) :
    ∃ t, Leaves code (gen e.addType n).1.length w s t := by
  have hroom := h.room
  refine Wcc.gen_leaves hnodup h.constants.longs hcode ?_ ?_ hw
  · rw [e.addType_same.1]
    exact h.frame
  · rw [e.addType_same.2]
    omega

variable {v : ℤ}

/-- A run of one use ends as C says exactly if the use sees the value. -/
theorem Observer.shown_iff_right (h : Ready env s e) (ho : o.Long) (hv : e.value env = some v)
    (hall : Everywhere (Observer.Right env) env e) : o.Shown env s e ↔ o.Right env e := by
  obtain ⟨x, hx⟩ := wide_eq_over h.values h.constants hv hall
  have hroom := h.room
  -- the one run of the program, and where it stops
  have hrun : ∀ n, ∃ t, Steps (o.program e n) { s with pc := 0 } t ∧
      t.pc = (o.program e n).length ∧
      (o.Outcome e.cType v t ↔ o.Sees e.cType (BitVec.ofInt 64 x) v) := by
    intro n
    have hlabels : (labelsOf (o.program e n)).Nodup :=
      ((gen_labels e.addType n).append_nil (o.labelsOf_code _)).nodup
    have hplace : CodeAt (o.program e n) 0 (o.program e n) := ⟨[], [], by simp, rfl⟩
    have h0 : Ready env { s with pc := 0 } e :=
      ⟨h.constants, h.values, fun x hx => ⟨(h.frame x hx).1, (h.frame x hx).2, (h.frame x hx).3⟩,
        h.room⟩
    obtain ⟨t1, h1⟩ := h0.gen_leaves hlabels hplace.left hx.wide_eq
    have hroom1 : 8 ≤ (t1.reg .rsp).toNat := by
      rw [h1.rsp_eq]
      change 8 ≤ (s.reg .rsp).toNat
      omega
    obtain ⟨t, ht, hpc, hiff⟩ := o.code_runs (s := t1) ho hroom1
      (by rw [h1.pc_eq]; exact hplace.right) v
    refine ⟨t, h1.steps.trans ht, ?_, ?_⟩
    · rw [hpc, h1.pc_eq, program, length_append]
      exact Nat.zero_add _ ▸ rfl
    · rw [Expr.type_addType, h1.rax_eq] at hiff
      exact hiff
  constructor
  · intro hshown
    obtain ⟨t, v', hv', hsteps, hpc, hout⟩ := hshown 0
    obtain rfl : v = v' := mem_unique hv hv'
    obtain ⟨t', hsteps', hpc', hiff⟩ := hrun 0
    obtain rfl := hsteps.unique hsteps' (step_end hpc) (step_end hpc')
    exact ⟨_, v, hx.wide_eq, hv, hiff.mp hout⟩
  · rintro ⟨w, v', hw, hv', hsees⟩ n
    obtain rfl : v = v' := mem_unique hv hv'
    obtain rfl : BitVec.ofInt 64 x = w := mem_unique hx.wide_eq hw
    obtain ⟨t, hsteps, hpc, hiff⟩ := hrun n
    exact ⟨t, v, hv, hsteps, hpc, hiff.mpr hsees⟩

lemma Observer.Inner.long (h : o.Inner) : o.Long := by
  cases o with
  | converted t | stored x | tested => trivial
  | matched c => exact h.elim

/-- Every use of a tree and those of a list after it end as C says exactly if all of them meet their
conditions. -/
theorem everywhere_shown_iff (h : Ready env s e) (hv : e.value env = some v) {os : List Observer}
    (hlong : ∀ o ∈ os, Observer.Long o) :
    Everywhere (Observer.Shown env s) env e ∧ (∀ o ∈ os, Observer.Shown env s o e) ↔
      Everywhere (Observer.FineAt env) env e ∧ ∀ o ∈ os, Observer.FineAt env o e := by
  have hinner : Everywhere (Observer.Shown env s) env e ↔ Everywhere (Observer.Right env) env e :=
    everywhere_iff_right (K := Ready env s) (fun _ hr => hr.operands)
      (fun o e v ho hr hv hall => Observer.shown_iff_right hr ho.long hv hall) h hv
  rw [hinner, ← everywhere_right_iff h.values h.constants hv]
  refine and_congr_right fun hall => forall₂_congr fun o ho => ?_
  rw [Observer.shown_iff_right h (hlong o ho) hv hall,
    Observer.right_iff_fineAt h.values h.constants hv hall o]

/-! ## Statements -/

/-- What a statement does with the value of an expression: it converts it, assigns it to a variable,
jumps if it is zero or if it is not, or looks for it among the cases of a `switch`, each with its
label, and takes another label if there is none. -/
inductive Use
  | convert (t : Ty)
  | assign (x : Var)
  | branch (onZero : Bool) (id : ℕ)
  | switch (cases : List (ℤ × ℕ)) (other : ℕ)
  deriving DecidableEq, Repr

namespace Use

/-- The uses of the value that this comes to. -/
def observers : Use → List Observer
  | convert t => [.converted t]
  | assign x => [.stored x]
  | branch _ _ => [.tested]
  | switch cases _ => cases.map fun c => .matched c.1

/-- Its instructions. -/
def code (source : Ty) : Use → List Instr
  | convert t => castRax source t
  | assign x => (Observer.stored x).code source
  | branch onZero id => [.test, .jcc (if onZero then .e else .ne) id]
  | switch cases other => switchCode cases ++ [.jmp other]

/-- The label that C goes on at: that of the case which is the value once it is converted to the
promoted type. -/
def dispatch (source : Ty) (v : ℤ) (cases : List (ℤ × ℕ)) (other : ℕ) : ℕ :=
  match cases with
  | [] => other
  | (c, id) :: rest => if source.promote.wrap c = v then id else dispatch source v rest other

/-- The state that C says comes after it, in a program where the statement ends at `after`. -/
def Meets (program : List Instr) (source : Ty) (v : ℤ) (after : ℕ) (t : State) : Use → Prop
  | convert target => t.pc = after ∧ (Observer.converted target).Outcome source v t
  | assign x => t.pc = after ∧ (Observer.stored x).Outcome source v t
  | branch onZero id => t.pc = if decide (v = 0) = onZero then labelAt program id else after
  | switch cases other => t.pc = labelAt program (dispatch source v cases other)

variable {program : List Instr} {u : Use}

/-- The comparisons of a `switch` find the case. -/
lemma switch_reaches {cases : List (ℤ × ℕ)} {other : ℕ} (hroom : 8 ≤ (s.reg .rsp).toNat)
    (hlong : ∀ c ∈ cases, Ty.long.Holds c.1)
    (hsees : ∀ c ∈ cases, (Observer.matched c.1).Sees source (s.reg .rax) v)
    (h : CodeAt program s.pc (switchCode cases ++ [.jmp other])) :
    ∃ t, Steps program s t ∧ t.pc = labelAt program (dispatch source v cases other) := by
  -- by induction on the cases that are left; the value stays in `rax`
  induction cases generalizing s with
  | nil => exact ⟨_, h.jump, rfl⟩
  | cons c rest ih =>
    obtain ⟨c, id⟩ := c
    have hcode : CodeAt program s.pc (.push :: loadImmediate c :: .mov .rdi .rax :: .pop .rax ::
      .cmp :: .jcc .e id :: (switchCode rest ++ [.jmp other])) := h
    obtain ⟨t, ht, hflags⟩ := matched_leaves (hlong _ mem_cons_self) hroom hcode
    have hjump : CodeAt program t.pc (.jcc .e id :: (switchCode rest ++ [.jmp other])) := by
      rw [ht.pc_eq]
      exact hcode.tail.tail.tail.tail.tail
    have hbranch := hjump.branch
    have hcase : Cond.e.holds t.flags = true ↔ source.promote.wrap c = v := by
      rw [hflags, holds_e_compare]
      exact hsees _ mem_cons_self
    by_cases heq : source.promote.wrap c = v
    · rw [if_pos (hcase.mpr heq)] at hbranch
      refine ⟨_, ht.steps.trans hbranch, ?_⟩
      rw [dispatch, if_pos heq]
    rw [if_neg (mt hcase.mp heq)] at hbranch
    have hroom' : 8 ≤ (t.next.reg .rsp).toNat := by
      change 8 ≤ (t.reg .rsp).toNat
      rw [ht.rsp_eq]
      exact hroom
    have hsees' : ∀ c ∈ rest, (Observer.matched c.1).Sees source (t.next.reg .rax) v := by
      intro c hc
      change (Observer.matched c.1).Sees source (t.reg .rax) v
      rw [ht.rax_eq]
      exact hsees c (mem_cons_of_mem _ hc)
    obtain ⟨u, hu, hpc⟩ := ih hroom' (fun c hc => hlong c (mem_cons_of_mem _ hc)) hsees'
      hjump.tail
    refine ⟨u, (ht.steps.trans hbranch).trans hu, ?_⟩
    rw [hpc, dispatch, if_neg heq]

/-- The instructions of a statement do what C says if its uses see the value. -/
lemma code_meets (hroom : 8 ≤ (s.reg .rsp).toNat) (hlong : ∀ o ∈ u.observers, Observer.Long o)
    (hsees : ∀ o ∈ u.observers, Observer.Sees source (s.reg .rax) v o)
    (h : CodeAt program s.pc (u.code source)) :
    ∃ t, Steps program s t ∧ u.Meets program source v (s.pc + (u.code source).length) t := by
  cases u with
  | convert target =>
    obtain ⟨t, hsteps, hpc, hiff⟩ := (Observer.converted target).code_runs trivial hroom h v
    exact ⟨t, hsteps, hpc, hiff.mpr (hsees _ mem_cons_self)⟩
  | assign x =>
    obtain ⟨t, hsteps, hpc, hiff⟩ := (Observer.stored x).code_runs trivial hroom h v
    exact ⟨t, hsteps, hpc, hiff.mpr (hsees _ mem_cons_self)⟩
  | branch onZero id =>
    obtain ⟨t, ht⟩ := test_reaches h
    have hzero : s.reg .rax = 0 ↔ v = 0 := hsees .tested mem_cons_self
    refine ⟨t, ht.steps, ?_⟩
    rw [Meets, ht.pc_eq]
    refine if_congr ?_ rfl rfl
    cases onZero with
    | true =>
      rw [if_pos rfl, holds_e_compare, hzero, decide_eq_true_iff]
    | false =>
      rw [if_neg Bool.false_ne_true, holds_ne_compare, decide_eq_false_iff_not, Ne, hzero]
  | switch cases other =>
    refine switch_reaches hroom (fun c hc => ?_) (fun c hc => ?_) h
    · exact hlong (.matched c.1) (mem_map.mpr ⟨c, hc, rfl⟩)
    · exact hsees (.matched c.1) (mem_map.mpr ⟨c, hc, rfl⟩)

/-- The code of an expression and of the statement around it is right: every use inside the tree
and every use by the statement ends as C says, and so does the statement in any program. -/
structure Correct (env : Var → ℤ) (s : State) (e : Expr) (u : Use) : Prop where
  /-- Every use inside the tree ends as C says. -/
  inner : Everywhere (Observer.Shown env s) env e
  /-- So does every use by the statement. -/
  last : ∀ o ∈ u.observers, Observer.Shown env s o e
  /-- So does the statement, wherever its code stands. -/
  meets : ∀ program n v, (labelsOf program).Nodup → e.value env = some v →
    CodeAt program s.pc ((gen e.addType n).1 ++ u.code e.addType.type) →
    ∃ t, Steps program s t ∧ u.Meets program e.cType v
      (s.pc + ((gen e.addType n).1 ++ u.code e.addType.type).length) t

/-- The condition for that: every use that looks at the whole register meets its condition, on C
values. -/
def Fine (env : Var → ℤ) (e : Expr) (u : Use) : Prop :=
  Everywhere (Observer.FineAt env) env e ∧ ∀ o ∈ u.observers, Observer.FineAt env o e

/-- A statement in any program. -/
lemma runs (h : Ready env s e) (hlong : ∀ o ∈ u.observers, Observer.Long o)
    (hv : e.value env = some v) (hfine : u.Fine env e) (hnodup : (labelsOf program).Nodup) {n : ℕ}
    (hcode : CodeAt program s.pc ((gen e.addType n).1 ++ u.code e.addType.type)) :
    ∃ t, Steps program s t ∧ u.Meets program e.cType v
      (s.pc + ((gen e.addType n).1 ++ u.code e.addType.type).length) t := by
  have hall := (everywhere_right_iff h.values h.constants hv).mpr hfine.1
  obtain ⟨x, hx⟩ := wide_eq_over h.values h.constants hv hall
  obtain ⟨t1, h1⟩ := h.gen_leaves hnodup hcode.left hx.wide_eq
  have hroom := h.room
  have hroom1 : 8 ≤ (t1.reg .rsp).toNat := by
    rw [h1.rsp_eq]
    omega
  have hcode1 : CodeAt program t1.pc (u.code e.cType) := by
    rw [h1.pc_eq, ← e.type_addType]
    exact hcode.right
  have hsees : ∀ o ∈ u.observers, Observer.Sees e.cType (t1.reg .rax) v o := by
    intro o ho
    obtain ⟨x', v', hover, hv', hfine'⟩ := hfine.2 o ho
    obtain rfl : v = v' := mem_unique hv hv'
    obtain rfl : x = x' := mem_unique hx.over_eq hover
    rw [h1.rax_eq]
    exact (sees_iff_fine hx (Expr.value_holds h.values hv) o).mpr hfine'
  obtain ⟨t, ht, hmeets⟩ := code_meets hroom1 hlong hsees hcode1
  refine ⟨t, h1.steps.trans ht, ?_⟩
  rw [h1.pc_eq, Nat.add_assoc, ← length_append] at hmeets
  rw [e.type_addType]
  exact hmeets

/-- The code of an expression is right, wherever its value is looked at, exactly if the condition
holds. -/
theorem code_correct_iff {env : Var → ℤ} {s : State} {e : Expr} (h : Ready env s e) {u : Use}
    (hlong : ∀ o ∈ u.observers, Observer.Long o) {v : ℤ} (hv : e.value env = some v) :
    u.Correct env s e ↔ u.Fine env e := by
  have hiff := everywhere_shown_iff h hv hlong
  constructor
  · exact fun hc => hiff.mp ⟨hc.inner, hc.last⟩
  intro hfine
  obtain ⟨hinner, hlast⟩ := hiff.mpr hfine
  refine ⟨hinner, hlast, fun program n v' hnodup hv' hcode => ?_⟩
  exact runs h hlong hv' hfine hnodup hcode

/-! ### A frame with three variables -/

/-- `unsigned u = 4294967295`. -/
def sampleU : Var := ⟨-4, .uint⟩

/-- `int a = 1`. -/
def sampleA : Var := ⟨-8, .int⟩

/-- `int b = 2`. -/
def sampleB : Var := ⟨-12, .int⟩

/-- The values of the variables. -/
def sampleEnv (x : Var) : ℤ :=
  if x = sampleU then 4294967295 else if x = sampleA then 1 else if x = sampleB then 2 else 0

/-- The frame in memory. -/
def sampleState : State where
  pc := 0
  reg r := if r = .rbp then 4096 else if r = .rsp then 3840 else 0
  mem a := if 4092 ≤ a.toNat ∧ a.toNat < 4096 then 255 else if a = 4088 then 1
    else if a = 4084 then 2 else 0
  flags := ⟨false, false, false⟩

lemma sampleEnv_holds (x : Var) : x.type.Holds (sampleEnv x) := by
  rw [sampleEnv]
  split_ifs with hu ha hb
  · rw [hu]
    decide
  · rw [ha]
    decide
  · rw [hb]
    decide
  · cases x.type <;> decide

lemma sample_inFrame {x : Var} (h : x ∈ [sampleU, sampleA, sampleB]) :
    InFrame sampleEnv sampleState x := by
  simp only [mem_cons, not_mem_nil, or_false] at h
  rcases h with rfl | rfl | rfl <;>
  · refine ⟨sampleEnv_holds _, by decide, ?_⟩
    simp only [Above]
    decide

/-- An expression over the three variables is ready to run there. -/
lemma sample_ready (hconst : e.Constants) (hvars : e.vars ⊆ [sampleU, sampleA, sampleB])
    (hdepth : e.depth ≤ 8) :
    Ready sampleEnv sampleState e := by
  refine ⟨hconst, sampleEnv_holds, fun x hx => sample_inFrame (hvars hx), ?_⟩
  change 8 * (e.depth + 1) ≤ 3840
  omega

/-- A use that does not meet its condition makes the code wrong. -/
lemma not_correct (h : Ready env s e) (hlong : ∀ o ∈ u.observers, Observer.Long o) {x : ℤ}
    (hv : e.value env = some v) (hover : e.over env = some x) (ho : o ∈ u.observers)
    (hnot : ¬ o.Fine e.cType x v) : ¬ u.Correct env s e := by
  intro hc
  obtain ⟨x', v', hover', hv', hfine⟩ := ((everywhere_shown_iff h hv hlong).mp ⟨hc.1, hc.2⟩).2 o ho
  obtain rfl : v = v' := mem_unique hv hv'
  obtain rfl : x = x' := mem_unique hover hover'
  exact hnot hfine

/-- `if (~u)` with all bits of `u` set takes the branch for a value that is not zero; `-u` widened to
`unsigned long` has ones above; and `switch (a - b)` misses `case -1`. -/
theorem upper_half_seen :
    ¬ (branch true 1).Correct sampleEnv sampleState (.bitnot (.var sampleU)) ∧
      ¬ (convert .ulong).Correct sampleEnv sampleState (.neg (.var sampleU)) ∧
      ¬ (switch [(-1, 1)] 2).Correct sampleEnv sampleState
        (.bin .sub (.var sampleA) (.var sampleB)) := by
  refine ⟨?_, ?_, ?_⟩
  · refine not_correct (x := -4294967296) (v := 0) (o := .tested)
      (sample_ready (e := .bitnot (.var sampleU)) trivial (by decide) (by decide)) ?_
      (by decide) (by decide) (by decide) ?_
    · exact fun o ho => mem_singleton.mp ho ▸ trivial
    · change ¬ ((2 ^ 64 : ℤ) ∣ -4294967296 ↔ (0 : ℤ) = 0)
      decide
  · refine not_correct (x := -4294967295) (v := 1) (o := .converted .ulong)
      (sample_ready (e := .neg (.var sampleU)) trivial (by decide) (by decide)) ?_
      (by decide) (by decide) (by decide) ?_
    · exact fun o ho => mem_singleton.mp ho ▸ trivial
    · change ¬ ((2 ^ 64 : ℤ) ∣ -4294967295 - 1)
      decide
  · refine not_correct (x := 4294967295) (v := -1) (o := .matched (-1))
      (sample_ready (e := .bin .sub (.var sampleA) (.var sampleB)) ⟨trivial, trivial⟩ (by decide)
        (by decide)) ?_ (by decide) (by decide) (by decide) ?_
    · intro o ho
      rw [mem_singleton.mp ho]
      change Ty.long.Holds (-1)
      decide
    · change ¬ ((2 ^ 64 : ℤ) ∣ 4294967295 - -1 ↔ Ty.int.promote.wrap (-1) = -1)
      decide

/-- `long y = a - b` is right: the conversion brings the sign in. -/
theorem code_correct_iff_difference :
    (assign ⟨-24, .long⟩).Correct sampleEnv sampleState
      (.bin .sub (.var sampleA) (.var sampleB)) := by
  have hconv (x : Var) : (Observer.converted .int).FineAt sampleEnv (.var x) :=
    ⟨_, _, rfl, rfl, trivial⟩
  refine (code_correct_iff (v := -1)
    (sample_ready (e := .bin .sub (.var sampleA) (.var sampleB)) ⟨trivial, trivial⟩ (by decide)
      (by decide)) ?_ (by decide)).mpr
    ⟨⟨trivial, trivial, fun _ => ⟨hconv _, hconv _⟩⟩, ?_⟩
  · exact fun o ho => mem_singleton.mp ho ▸ trivial
  intro o ho
  rw [mem_singleton.mp ho]
  refine ⟨4294967295, -1, by decide, by decide, ?_⟩
  trivial

end Use

/-! ## Increments -/

lemma Ty.Holds.eq_of_low {t : Ty} {y z : ℤ} (hy : t.Holds y) (hz : t.Holds z)
    (h : BitVec.ofInt t.bits y = BitVec.ofInt t.bits z) : y = z :=
  hy.eq_of_emod hz (emod_eq_emod_iff_emod_sub_eq_zero.mpr
    (emod_eq_zero_of_dvd (ofInt_eq_iff.mp h)))

/-- The one of `x += 1` and `x -= 1`, which `make_add` and `make_sub` scale by the size of what a
pointer points to. -/
def scaledOne : Option (Fin 2147483648) → Expr
  | none => .num 1 .int
  | some size => .bin .mul (.cast .long (.num 1 .int)) (.num size .long)

namespace Var

variable (x : Var) (up : Bool) (env : Var → ℤ)

/-- A place plus or minus something. -/
def stepped (one : Expr) : Expr := .bin (if up then .add else .sub) (.var x) one

/-- What a place holds once the code has stored an expression, and what the assignment leaves in the
register. -/
def assigned (e : Expr) : Option ℤ :=
  ((Expr.cast x.type e.addType).wide env).map fun w => x.type.wrap w.toInt

/-- `++x` or `--x`, for a pointer too. -/
def prefixed : Option ℤ := x.assigned env (x.stepped up (.num 1 .int))

/-- The value of `x++` or `x--`: the step is taken back, and converted to the type of the place. -/
def postfixValue : Option ℤ :=
  (x.prefixed up env).bind fun v => x.prefixed (!up) (Function.update env x v)

lemma value_stepped : (x.stepped up (.num 1 .int)).value env =
    some ((x.type.usual .int).wrap
      ((x.type.usual .int).wrap (env x) + if up then 1 else -1)) := by
  have hone : (x.type.usual .int).wrap (Ty.int.wrap 1) = 1 := by cases x.type <;> decide
  cases up
  · exact congrArg (fun k => some (Ty.wrap _ (Ty.wrap _ _ - k))) hone
  · exact congrArg (fun k => some (Ty.wrap _ (Ty.wrap _ _ + k))) hone

variable {x env} (henv : ∀ x : Var, x.type.Holds (env x)) (hbool : x.type ≠ .bool)

include henv hbool

/-- The code of a step stores the sum, converted to the type of the place. -/
lemma prefixed_eq :
    x.prefixed up env = some (x.type.wrap (env x + if up then 1 else -1)) := by
  have hv := x.value_stepped up env
  obtain ⟨hnot, hle, h64⟩ : x.type.usual .int ≠ .bool ∧ x.type.bits ≤ (x.type.usual .int).bits ∧
      (x.type.size = 8 → (x.type.usual .int).bits = 64) := by cases x.type <;> decide
  set c := x.type.usual .int
  have hconst : (x.stepped up (.num 1 .int)).Constants :=
    ⟨trivial, .inr ⟨.inl rfl, by decide, by decide⟩⟩
  -- the two operands are converted without loss
  have hleaf : ∀ {e : Expr} {v : ℤ}, e.over env = some v → e.value env = some v →
      (Observer.converted c).FineAt env e := by
    intro e v hover hv
    refine ⟨v, v, hover, hv, ?_⟩
    rw [Observer.Fine, if_neg hnot, sub_self]
    split_ifs
    exact dvd_zero _
  obtain ⟨y, hy⟩ := wide_eq_over henv hconst hv ((everywhere_right_iff henv hconst hv).mpr
    ⟨trivial, trivial, fun _ => ⟨hleaf rfl rfl, hleaf rfl rfl⟩⟩)
  rw [prefixed, assigned, Expr.wide, hy.wide_eq, map_some, Expr.type_addType,
    (hy.converted_iff (Expr.value_holds henv hv) _).mpr ?_, map_some]
  · refine congrArg some ((Ty.wrap_holds _ _).eq_of_low (Ty.wrap_holds _ _) ?_)
    rw [Ty.ofInt_wrap hbool, ofInt_toInt_narrow, narrow_ofInt (Ty.bits_le _), Ty.ofInt_wrap hbool,
      Ty.ofInt_wrap hbool, ofInt_eq_iff]
    refine dvd_trans (pow_dvd_pow 2 hle) (ofInt_eq_iff.mp ?_)
    rw [Ty.ofInt_wrap hnot, BitVec.ofInt_add, Ty.ofInt_wrap hnot, ← BitVec.ofInt_add]
  · have hlow := hy.low
    rw [Observer.Fine, if_neg hbool]
    split
    next h =>
      rwa [show (x.stepped up (.num 1 .int)).cType = c by cases up <;> rfl, h64 h.1] at hlow
    next => trivial

/-- The step is taken back where the type wraps around. -/
lemma postfixValue_eq : x.postfixValue up env = some (env x) := by
  rw [postfixValue, prefixed_eq up henv hbool, bind_some, prefixed_eq _ ?_ hbool,
    Function.update_self]
  · refine congrArg some ((Ty.wrap_holds _ _).eq_of_low (henv _) ?_)
    rw [Ty.ofInt_wrap hbool, BitVec.ofInt_add, Ty.ofInt_wrap hbool, ← BitVec.ofInt_add]
    cases up <;> simp
  · exact (Function.forall_update_iff env fun x v => x.type.Holds v).mpr
      ⟨Ty.wrap_holds _ _, fun x _ => henv x⟩

end Var

/-- A pointer that is stepped by a compound assignment moves by the size of what it points to. -/
lemma Var.assigned_scaled (o : ℤ) (up : Bool) (env : Var → ℤ) (size : Fin 2147483648) :
    Var.assigned ⟨o, .ulong⟩ env (Var.stepped ⟨o, .ulong⟩ up (scaledOne (some size))) =
      some (Ty.ulong.wrap (env ⟨o, .ulong⟩ + if up then (size : ℤ) else -size)) := by
  have hwide : ∀ w : BitVec 64,
      BitVec.ofInt 64 (env ⟨o, .ulong⟩ + if up then (size : ℤ) else -size) = w →
      Ty.ulong.wrap w.toInt =
        Ty.ulong.wrap (env ⟨o, .ulong⟩ + if up then (size : ℤ) else -size) := by
    rintro w rfl
    refine (Ty.wrap_holds _ _).eq_of_low (Ty.wrap_holds _ _) ?_
    rw [Ty.ofInt_wrap (by decide), Ty.ofInt_wrap (by decide)]
    exact BitVec.ofInt_toInt ..
  cases up
  · refine congrArg some
      (hwide (BitVec.ofInt 64 (env _) - BitVec.ofInt 64 1 * BitVec.ofInt 64 size) ?_)
    simp [BitVec.ofInt_add, BitVec.ofInt_neg, BitVec.sub_eq_add_neg]
  · refine congrArg some
      (hwide (BitVec.ofInt 64 (env _) + BitVec.ofInt 64 1 * BitVec.ofInt 64 size) ?_)
    simp [BitVec.ofInt_add]

/-- A step is the compound assignment exactly if the place is not a pointer to anything but bytes;
and what the place held before is had back exactly if it is not a `_Bool` that the step leaves as it
is. An address is an `unsigned long` to the generator. -/
theorem steps_agree_iff (x : Var) (pointee : Option (Fin 2147483648))
    (haddress : pointee.isSome = true → x.type = .ulong) {env : Var → ℤ}
    (henv : ∀ x : Var, x.type.Holds (env x)) (up : Bool) :
    (x.prefixed up env = x.assigned env (x.stepped up (scaledOne pointee)) ↔
      ∀ size ∈ pointee, size = 1) ∧
      (x.postfixValue up env = some (env x) ↔ (x.type = .bool → env x = if up then 0 else 1)) := by
  obtain ⟨o, t⟩ := x
  constructor
  · cases pointee with
    | none => simp [Var.prefixed, scaledOne]
    | some size =>
      obtain rfl : t = .ulong := haddress rfl
      have hone : Var.prefixed ⟨o, .ulong⟩ up env = Var.assigned ⟨o, .ulong⟩ env
          (Var.stepped ⟨o, .ulong⟩ up (scaledOne (some 1))) := by cases up <;> rfl
      simp only [hone, Var.assigned_scaled, mem_def, some.injEq, forall_eq']
      refine ⟨fun h => ?_, fun h => by rw [h]⟩
      have hlow := congrArg (BitVec.ofInt 64) h
      rw [Ty.ofInt_wrap_wide rfl, Ty.ofInt_wrap_wide rfl, ofInt_eq_iff] at hlow
      have hlt := size.isLt
      cases up <;> simp at hlow <;> omega
  · by_cases hbool : t = .bool
    · subst hbool
      -- what the code makes of the place depends on what it holds, not on where it is
      have hplace : ∀ up env, Var.prefixed ⟨o, .bool⟩ up env =
          Var.prefixed ⟨0, .bool⟩ up fun _ => env ⟨o, .bool⟩ := by
        rintro (_ | _) env <;> rfl
      simp only [Var.postfixValue, hplace, Function.update_self]
      obtain h | h : env ⟨o, .bool⟩ = 0 ∨ env ⟨o, .bool⟩ = 1 := by
        obtain ⟨h0, h1⟩ : 0 ≤ env ⟨o, .bool⟩ ∧ env ⟨o, .bool⟩ < 2 := henv ⟨o, .bool⟩
        omega
      all_goals
        rw [h]
        cases up <;> decide
    · exact iff_of_true (Var.postfixValue_eq up henv hbool) fun h => absurd h hbool

/-- A pointer to bytes is stepped as by `+= 1`, and a `_Bool` that is zero is had back. -/
theorem steps_agree_iff_sample :
    Var.prefixed ⟨-8, .ulong⟩ true (fun _ => 1) = Var.assigned ⟨-8, .ulong⟩ (fun _ => 1)
        (Var.stepped ⟨-8, .ulong⟩ true (scaledOne (some 1))) ∧
      Var.postfixValue ⟨-1, .bool⟩ true (fun _ => 0) = some 0 :=
  ⟨(steps_agree_iff ⟨-8, .ulong⟩ (some 1) (fun _ => rfl) (fun x => by cases x.type <;> decide)
      true).1.mpr (by simp),
    (steps_agree_iff ⟨-1, .bool⟩ none (by simp) (fun x => by cases x.type <;> decide) true).2.mpr
      fun _ => rfl⟩

/-- `++p` on an `int *` moves it by one byte and `p += 1` by four; `x++` on a `_Bool` that is one
is zero. -/
theorem steps_differ :
    Var.prefixed ⟨-8, .ulong⟩ true (fun _ => 4096) = some 4097 ∧
      Var.assigned ⟨-8, .ulong⟩ (fun _ => 4096)
        (Var.stepped ⟨-8, .ulong⟩ true (scaledOne (some 4))) = some 4100 ∧
      Var.postfixValue ⟨-1, .bool⟩ true (fun _ => 1) = some 0 := by
  decide

end Wos.Wcc
