import Wos.Wcc.Types

/-!
# Calls by name

A call is parsed in two places. `primary` takes an identifier with a parenthesis after it for the name
of a symbol, whatever the identifier stands for; `postfix` calls through the value of any other
expression. A name is looked up with `scope_find`, which also finds the tags of structures: a tag
hides the identifiers of its name.

## Main definitions

* `scopeFind`, `functionCall`, `parseCall`: the parser;
* `genFuncall`: which call is generated;
* `denotes`: what an identifier stands for in C;
* `RightCall`: the call C asks for;
* `FoundApart`: identifiers and tags are found as if in scopes of their own;
* `HiddenByTag`: the newest entry of a name is a tag, with an identifier behind it.

## Main results

* `parseCall_star`: `(*e)(args)` calls through the object;
* `call_by_name_right_iff`: when a call by name is right;
* `foundApart_iff`: a name is found as in C unless a tag hides it.
-/

namespace Wos.Wcc

open Option List

/-- Types. An enumeration is an `int`; of a structure or a union only the size matters here. -/
inductive CTy
  | void
  | int (t : Ty)
  | ptr (base : CTy)
  | array (base : CTy) (len : ℕ)
  | record (size : ℕ)
  | func (ret : CTy) (params : List CTy)

/-- What `sizeof` gives. -/
def CTy.size : CTy → ℕ
  | void | func _ _ => 1
  | int t => t.size
  | ptr _ => 8
  | array base len => base.size * len
  | record size => size

/-- A variable or a function. -/
structure Obj where
  name : String
  type : CTy
  isLocal : Bool
  offset : ℤ

/-- What an entry of a scope binds. -/
inductive Binding
  | var (o : Obj)
  | typeDef (t : CTy)
  | tag (t : CTy)
  | enumConstant (value : ℤ)

/-- Whether it is the tag of a structure, a union or an enumeration. -/
def Binding.isTag : Binding → Bool
  | tag _ => true
  | _ => false

/-- `scope_entry_t`. -/
structure Entry where
  name : String
  binding : Binding

/-- The scopes from the innermost one out, each with its newest entry first. -/
abbrev Scope := List (List Entry)

/-- `scope_find`. -/
def scopeFind (scope : Scope) (name : String) : Option Binding :=
  (scope.flatten.find? (·.name == name)).map Entry.binding

/-- The nodes a callee is made of; of any other expression its type and its value. -/
inductive Node
  | var (o : Obj)
  | deref (lhs : Node)
  | other (type : CTy) (value : ℤ)

/-- What a pointer or an array leads to. -/
def CTy.base : CTy → Option CTy
  | ptr base | array base _ => some base
  | _ => none

/-- `add_type`. -/
def Node.type : Node → Option CTy
  | var o => some o.type
  | deref lhs => lhs.type.bind CTy.base
  | other t _ => some t

/-- Whom a call names: a symbol, or an address to call through. -/
inductive Callee
  | symbol (name : String)
  | through (target : Node)

/-- A node `ND_FUNCALL`: each argument with the type it is cast to. -/
structure Call where
  callee : Callee
  funcType : Option CTy
  args : List (CTy × Option CTy)
  type : CTy

/-- The cast of an argument without a parameter. -/
def defaultCast (arg : CTy) : Option CTy :=
  match arg with
  | .array base _ => some (.ptr base)
  | t => if t.size < 4 then some (.int .int) else none

/-- The casts of the arguments, along the parameters. A structure is passed as it is. -/
def convertArgs : List CTy → List CTy → List (CTy × Option CTy)
  | _, [] => []
  | [], arg :: args => (arg, defaultCast arg) :: convertArgs [] args
  | .record _ :: params, arg :: args => (arg, none) :: convertArgs params args
  | param :: params, arg :: args => (arg, some param) :: convertArgs params args

/-- The function type of a binding, if it is a function. -/
def Binding.funcType : Binding → Option CTy
  | var ⟨_, .func ret params, _, _⟩ => some (.func ret params)
  | _ => none

/-- The function type of a target: a function, or what a pointer leads to. -/
def Node.funcType (target : Node) : Option CTy :=
  match target.type with
  | some (.ptr (.func ret params)) | some (.func ret params) => some (.func ret params)
  | _ => none

/-- The rest of `function_call`, once the function type is known or not. The type is the one
`add_type` leaves. -/
def finishCall (callee : Callee) (funcType : Option CTy) (args : List CTy) : Call :=
  match funcType with
  | some (.func ret params) => ⟨callee, funcType, convertArgs params args, ret⟩
  | _ => ⟨callee, none, convertArgs [] args, .int .int⟩

/-- `function_call`. -/
def functionCall (scope : Scope) (callee : Callee) (args : List CTy) : Call :=
  match callee with
  | .symbol name => finishCall callee ((scopeFind scope name).bind Binding.funcType) args
  | .through target => finishCall callee target.funcType args

/-- Expressions in the place of the callee. -/
inductive CalleeExpr
  | ident (name : String)
  | paren (e : CalleeExpr)
  | star (e : CalleeExpr)
  | other (n : Node)

/-- The names of inline assembly, which `primary` refuses whatever is in scope. -/
def asmNames : List String := ["__asm__", "asm", "__asm"]

/-- `primary` and `unary`, on an expression that is not called; nothing if it is refused. -/
def CalleeExpr.parse (scope : Scope) : CalleeExpr → Option Node
  | ident name =>
    if name ∈ asmNames then none
    else
      match scopeFind scope name with
      | some (.var o) => some (.var o)
      | some (.enumConstant value) => some (.other (.int .int) value)
      | _ => none
  | paren e => e.parse scope
  | star e => (e.parse scope).bind fun operand =>
    match operand.type with
    -- a function pointer gives the function back
    | some (.ptr (.func _ _)) => some operand
    | some (.ptr .void) | some (.array .void _) => none
    | some (.ptr _) | some (.array _ _) => some (.deref operand)
    | _ => none
  | other n => some n

/-- A call: `primary` for an identifier, `postfix` for the rest; nothing if it is refused. -/
def parseCall (scope : Scope) (callee : CalleeExpr) (args : List CTy) : Option Call :=
  match callee with
  | .ident name =>
    if name ∈ asmNames then none else some (functionCall scope (.symbol name) args)
  | e => (e.parse scope).map fun target => functionCall scope (.through target) args

/-! ## The code -/

/-- Where things are when the call is made: the symbols, the frame, and what a load of a scalar type
finds. -/
structure Place where
  symbol : String → ℤ
  bp : ℤ
  load : CTy → ℤ → ℤ

/-- `gen_address` of a variable. -/
def Place.address (p : Place) (o : Obj) : ℤ := if o.isLocal then p.bp + o.offset else p.symbol o.name

/-- `load_from_rax`: an array, a structure or a function is used by its address. -/
def Place.loadFrom (p : Place) (type : Option CTy) (address : ℤ) : ℤ :=
  match type with
  | some (.array _ _) | some (.record _) | some (.func _ _) | none => address
  | some t => p.load t address

/-- `gen_expr`. -/
def Node.value (p : Place) : Node → ℤ
  | var o => p.loadFrom o.type (p.address o)
  | deref lhs => p.loadFrom (deref lhs).type (lhs.value p)
  | other _ value => value

/-- The instruction at the end of a call. -/
inductive CallCode
  | vaStart
  | direct (symbol : String)
  | indirect (target : Node)

/-- `gen_funcall`. -/
def genFuncall (call : Call) : CallCode :=
  match call.callee with
  | .symbol name => if name = "__builtin_va_start" then .vaStart else .direct name
  | .through target => .indirect target

/-! ## What C asks for -/

/-- What an identifier stands for in C: tags have a name space of their own. -/
def denotes (scope : Scope) (name : String) : Option Binding :=
  (scope.flatten.find? fun e => e.name == name && !e.binding.isTag).map Entry.binding

/-- The types the arguments are passed with. -/
def passed (args : List (CTy × Option CTy)) : List CTy := args.map fun a => a.2.getD a.1

/-- The call passes the arguments with the types of the parameters and has the result of a function
type. -/
def Call.Follows (call : Call) (ret : CTy) (params args : List CTy) : Prop :=
  passed call.args = passed (convertArgs params args) ∧ call.type = ret

/-- The call of a name that C asks for. -/
def RightCall (scope : Scope) (name : String) (args : List CTy) (call : Call) : Prop :=
  match denotes scope name with
  | none => genFuncall call = .direct name ∧ call.Follows (.int .int) [] args
  | some (.var ⟨_, .func ret params, _, _⟩) =>
    genFuncall call = .direct name ∧ call.Follows ret params args
  | some (.var ⟨x, .ptr (.func ret params), l, off⟩) =>
    (∃ target, genFuncall call = .indirect target ∧
      ∀ p : Place, target.value p =
        p.load (.ptr (.func ret params)) (p.address ⟨x, .ptr (.func ret params), l, off⟩)) ∧
    call.Follows ret params args
  | some _ => genFuncall call ≠ .direct name

/-- The condition on the scope: the name is undeclared, or denotes a function that no tag of its name
hides, or whose type asks for nothing that an undeclared function would not get. The name of
`va_start` is not called at all, and the names of inline assembly are refused. -/
def CallableByName (scope : Scope) (name : String) (args : List CTy) : Prop :=
  name ∉ asmNames ∧
  match denotes scope name with
  | none => name ≠ "__builtin_va_start"
  | some (.var ⟨_, .func ret params, _, _⟩) =>
    name ≠ "__builtin_va_start" ∧
      ((∀ t, scopeFind scope name ≠ some (.tag t)) ∨
        ret = .int .int ∧ passed (convertArgs [] args) = passed (convertArgs params args))
  | some (.var ⟨_, .ptr (.func _ _), _, _⟩) => False
  | some _ => name = "__builtin_va_start"

/-! ## Lookups -/

/-- What the parser finds first is what the name denotes, unless it is a tag. -/
lemma scopeFind_eq_denotes (scope : Scope) (name : String) :
    (∃ t, scopeFind scope name = some (.tag t)) ∨ scopeFind scope name = denotes scope name := by
  unfold scopeFind denotes
  -- along the entries, up to the first one of the name
  induction scope.flatten with
  | nil => exact .inr rfl
  | cons e entries ih =>
    rw [find?_cons, find?_cons]
    cases hname : e.name == name with
    | false => exact ih
    | true =>
      cases hb : e.binding with
      | tag t => exact Or.inl ⟨t, by rw [map_some, hb]⟩
      | var o | typeDef t | enumConstant v => exact .inr rfl

/-- The function type of a name that does not denote a function is not found. -/
lemma scopeFind_funcType (scope : Scope) (name : String) :
    (∃ t, scopeFind scope name = some (.tag t)) ∧ (scopeFind scope name).bind Binding.funcType = none ∨
      (∀ t, scopeFind scope name ≠ some (.tag t)) ∧
        (scopeFind scope name).bind Binding.funcType =
          (denotes scope name).bind Binding.funcType := by
  by_cases htag : ∃ t, scopeFind scope name = some (.tag t)
  · left
    refine ⟨htag, ?_⟩
    obtain ⟨t, ht⟩ := htag
    rw [ht]
    rfl
  · right
    refine ⟨fun t ht => htag ⟨t, ht⟩, ?_⟩
    rw [(scopeFind_eq_denotes scope name).resolve_left htag]

lemma finishCall_callee (callee : Callee) (funcType : Option CTy) (args : List CTy) :
    (finishCall callee funcType args).callee = callee := by
  unfold finishCall
  split <;> rfl

/-- A call by name is generated as a direct call, whatever the name denotes. -/
lemma genFuncall_symbol (scope : Scope) (name : String) (args : List CTy) :
    genFuncall (functionCall scope (.symbol name) args) =
      if name = "__builtin_va_start" then .vaStart else .direct name := by
  rw [genFuncall, functionCall, finishCall_callee]

lemma genFuncall_symbol_eq_direct (scope : Scope) (name : String) (args : List CTy) :
    genFuncall (functionCall scope (.symbol name) args) = .direct name ↔
      name ≠ "__builtin_va_start" := by
  rw [genFuncall_symbol]
  split
  next h => simp [h]
  next h => simp [h]

/-! ## Calls -/

/-- `(*e)(args)`, where `e` stands for an object that points to a function and the parser finds it,
calls through the object. -/
theorem parseCall_star {scope : Scope} {name : String} {o : Obj} {ret : CTy} {params : List CTy}
    (args : List CTy) (hasm : name ∉ asmNames) (hfind : scopeFind scope name = some (.var o))
    (htype : o.type = .ptr (.func ret params)) :
    ∃ call, parseCall scope (.paren (.star (.ident name))) args = some call ∧
      (∃ target, genFuncall call = .indirect target ∧
        ∀ p : Place, target.value p = p.load o.type (p.address o)) ∧
      call.Follows ret params args := by
  have hparse : (CalleeExpr.paren (.star (.ident name))).parse scope = some (.var o) := by
    simp only [CalleeExpr.parse, if_neg hasm, hfind, bind_some, Node.type, htype]
  have hfunc : (Node.var o).funcType = some (.func ret params) := by
    simp only [Node.funcType, Node.type, htype]
  refine ⟨functionCall scope (.through (.var o)) args, ?_, ⟨.var o, ?_, fun p => ?_⟩, ?_⟩
  · simp [parseCall, hparse]
  · simp only [functionCall, hfunc, finishCall, genFuncall]
  · simp only [Node.value, Place.loadFrom, htype]
  · simp only [Call.Follows, functionCall, hfunc, finishCall, and_self]

/-- A call by name is the call C asks for if and only if the name is callable so. In particular it
never is for an object that points to a function. -/
theorem call_by_name_right_iff (scope : Scope) (name : String) (args : List CTy) :
    (∃ call, parseCall scope (.ident name) args = some call ∧ RightCall scope name args call) ↔
      CallableByName scope name args := by
  have hcall : (∃ call, parseCall scope (.ident name) args = some call ∧
      RightCall scope name args call) ↔ name ∉ asmNames ∧
      RightCall scope name args (functionCall scope (.symbol name) args) := by
    simp [parseCall]
  have hdirect := genFuncall_symbol_eq_direct scope name args
  have hfound := scopeFind_funcType scope name
  rw [hcall, RightCall, CallableByName]
  refine and_congr_right fun _ => ?_
  split
  next hdenotes =>
    -- undeclared: no function type either way
    have hnone : (scopeFind scope name).bind Binding.funcType = none := by
      rcases hfound with ⟨-, h⟩ | ⟨-, h⟩
      · exact h
      · rw [h, hdenotes, bind_none]
    rw [hdirect, functionCall, hnone]
    exact and_iff_left ⟨rfl, rfl⟩
  next x ret params l off hdenotes =>
    rw [hdirect]
    refine and_congr_right fun _ => ?_
    rcases hfound with ⟨⟨t, htag⟩, hnone⟩ | ⟨hfree, hfunc⟩
    · -- hidden by a tag: called as if it were undeclared
      have hhidden : ¬ ∀ t, scopeFind scope name ≠ some (.tag t) := fun h => h t htag
      rw [functionCall, hnone, or_iff_right hhidden]
      constructor
      · rintro ⟨hargs, hret⟩
        exact ⟨hret.symm, hargs⟩
      · rintro ⟨rfl, hargs⟩
        exact ⟨hargs, rfl⟩
    · rw [functionCall, hfunc, hdenotes]
      exact iff_of_true ⟨rfl, rfl⟩ (.inl hfree)
  next x ret params l off hdenotes =>
    -- the call is by name
    refine iff_of_false ?_ id
    rintro ⟨⟨target, htarget, -⟩, -⟩
    rw [genFuncall_symbol] at htarget
    split at htarget <;> cases htarget
  next hfun hptr hdenotes =>
    rw [ne_eq, hdirect, not_not]

/-- With a local `int (*fp)(long)`, the call `fp(1)` is a call of a symbol `fp`, which passes an
`int`. -/
theorem pointer_called_by_name :
    let o : Obj := ⟨"fp", .ptr (.func (.int .int) [.int .long]), true, -8⟩
    let call := functionCall [[⟨"fp", .var o⟩]] (.symbol "fp") [.int .int]
    parseCall [[⟨"fp", .var o⟩]] (.ident "fp") [.int .int] = some call ∧
      genFuncall call = .direct "fp" ∧ passed call.args = [.int .int] ∧
      ¬ RightCall [[⟨"fp", .var o⟩]] "fp" [.int .int] call := by
  refine ⟨rfl, rfl, rfl, ?_⟩
  rintro ⟨⟨target, htarget, -⟩, -⟩
  cases htarget

/-! ## Two name spaces -/

/-- `scope_find_tag`. -/
def scopeFindTag (scope : Scope) (name : String) : Option Binding :=
  (scope.flatten.find? fun e => e.binding.isTag && e.name == name).map Entry.binding

/-- What the parser does to the scopes. -/
inductive ScopeOp
  | enter
  | leave
  | add (e : Entry)

/-- `enter_scope`, `leave_scope` and `scope_add`, on scopes for the entries that `keep` lets in. There
is always a scope to leave and to add to. -/
def ScopeOp.exec (keep : Entry → Bool) : Scope → ScopeOp → Option Scope
  | scope, enter => some ([] :: scope)
  | _ :: scope, leave => some scope
  | entries :: scope, add e => some ((if keep e then e :: entries else entries) :: scope)
  | [], _ => none

/-- The scopes after some operations, from the one of the file on. -/
def scopesAfter (keep : Entry → Bool) (ops : List ScopeOp) : Option Scope :=
  ops.foldlM (ScopeOp.exec keep) [[]]

/-- A name is found, as an identifier and as a tag, as if the two had scopes of their own. -/
def FoundApart (ops : List ScopeOp) (name : String) : Prop :=
  ∃ scope idents tags, scopesAfter (fun _ => true) ops = some scope ∧
    scopesAfter (!·.binding.isTag) ops = some idents ∧
    scopesAfter (·.binding.isTag) ops = some tags ∧
    (scopeFind scope name).filter (!·.isTag) = scopeFind idents name ∧
    scopeFindTag scope name = scopeFind tags name

/-- The scopes of one kind of entry are those of all entries without the others. -/
lemma scopesAfter_filter (keep : Entry → Bool) (ops : List ScopeOp) :
    scopesAfter keep ops = (scopesAfter (fun _ => true) ops).map (·.map (·.filter keep)) := by
  have hrun : ∀ scope : Scope, ops.foldlM (ScopeOp.exec keep) (scope.map (·.filter keep)) =
      (ops.foldlM (ScopeOp.exec fun _ => true) scope).map (·.map (·.filter keep)) := by
    induction ops with
    | nil => exact fun _ => rfl
    | cons op ops ih =>
      intro scope
      have hstep : ScopeOp.exec keep (scope.map (·.filter keep)) op =
          (ScopeOp.exec (fun _ => true) scope op).map (·.map (·.filter keep)) := by
        cases op <;> cases scope <;> simp [ScopeOp.exec, filter_cons]
      rw [foldlM_cons, foldlM_cons, hstep]
      cases ScopeOp.exec (fun _ => true) scope op with
      | none => rfl
      | some scope' => exact ih scope'
  exact hrun [[]]

lemma scopeFind_filter (keep : Entry → Bool) (scope : Scope) (name : String) :
    scopeFind (scope.map (·.filter keep)) name =
      (scope.flatten.find? fun e => keep e && e.name == name).map Entry.binding := by
  simp only [scopeFind, ← filter_flatten, find?_filter, Bool.decide_and, Bool.decide_eq_true]

/-- The newest entry of the name is a tag, and there is an identifier of the name behind it. -/
def HiddenByTag (entries : List Entry) (name : String) : Prop :=
  ∃ newer e older, entries = newer ++ e :: older ∧ (∀ x ∈ newer, x.name ≠ name) ∧
    e.name = name ∧ e.binding.isTag = true ∧
    ∃ x ∈ older, x.name = name ∧ x.binding.isTag = false

lemma denotes_eq_none_iff (scope : Scope) (name : String) : denotes scope name = none ↔
    ∀ x ∈ scope.flatten, x.name = name → x.binding.isTag = true := by
  rw [denotes, Option.map_eq_none_iff, find?_eq_none]
  exact forall₂_congr fun x _ => by simp

/-- A tag is found first, although the name denotes something. -/
lemma hiddenByTag_iff (scope : Scope) (name : String) : HiddenByTag scope.flatten name ↔
    denotes scope name ≠ none ∧ ∃ t, scopeFind scope name = some (.tag t) := by
  have htag : ∀ b : Binding, b.isTag = true ↔ ∃ t, b = .tag t := by
    intro b
    cases b <;> simp [Binding.isTag]
  constructor
  · rintro ⟨newer, e, older, hsplit, hnewer, hname, he, x, hx, hxname, hident⟩
    refine ⟨fun hnone => ?_, ?_⟩
    · have hxtag := (denotes_eq_none_iff scope name).mp hnone x
        (by rw [hsplit]; exact mem_append_right _ (mem_cons_of_mem _ hx)) hxname
      rw [hident] at hxtag
      cases hxtag
    · have hfirst : scope.flatten.find? (·.name == name) = some e :=
        find?_eq_some_iff_append.mpr
          ⟨by simpa using hname, newer, older, hsplit, by simpa using hnewer⟩
      obtain ⟨t, ht⟩ := (htag e.binding).mp he
      exact ⟨t, by rw [scopeFind, hfirst, map_some, ht]⟩
  · rintro ⟨hsome, t, hfind⟩
    obtain ⟨e, hfirst, he⟩ := map_eq_some_iff.mp hfind
    obtain ⟨hname, newer, older, hsplit, hnewer⟩ := find?_eq_some_iff_append.mp hfirst
    rw [ne_eq, denotes_eq_none_iff] at hsome
    push Not at hsome
    obtain ⟨x, hx, hxname, hident⟩ := hsome
    refine ⟨newer, e, older, hsplit, by simpa using hnewer, by simpa using hname,
      (htag _).mpr ⟨t, he⟩, x, ?_, hxname, by simpa using hident⟩
    -- the identifier is neither before the first entry of its name nor that entry
    rw [hsplit] at hx
    rcases mem_append.mp hx with hx | hx
    · exact absurd (hnewer x hx) (by simp [hxname])
    · rcases mem_cons.mp hx with rfl | hx
      · rw [he] at hident
        exact absurd rfl hident
      · exact hx

/-- What the parser finds as an identifier is what the name denotes, unless a tag is in front. -/
lemma scopeFind_ident_iff (scope : Scope) (name : String) :
    (scopeFind scope name).filter (!·.isTag) = denotes scope name ↔
      ¬ HiddenByTag scope.flatten name := by
  rw [hiddenByTag_iff, not_and_or, not_not, not_exists]
  rcases scopeFind_eq_denotes scope name with ⟨t, ht⟩ | heq
  · have hnone : (scopeFind scope name).filter (!·.isTag) = none := by
      rw [ht]
      rfl
    rw [hnone, or_iff_left fun hnot => hnot t ht, eq_comm]
  have hident : ∀ b, denotes scope name = some b → (!b.isTag) = true := by
    intro b hb
    obtain ⟨e, he, rfl⟩ := map_eq_some_iff.mp hb
    have hkept := find?_some he
    simp only [Bool.and_eq_true] at hkept
    exact hkept.2
  rw [heq]
  refine iff_of_true ?_ (Or.inr fun t ht => by cases hident _ ht)
  cases hb : denotes scope name with
  | none => rfl
  | some b => exact filter_some_pos (hident b hb)

/-- A tag is always found. An identifier is, exactly if no tag of its name has been declared since
and is still in scope. -/
theorem foundApart_iff (ops : List ScopeOp) (name : String) :
    FoundApart ops name ↔ ∃ scope, scopesAfter (fun _ => true) ops = some scope ∧
      ¬ HiddenByTag scope.flatten name := by
  have hidents : ∀ scope : Scope, scopeFind (scope.map (·.filter (!·.binding.isTag))) name =
      denotes scope name := fun scope => by
    simp only [scopeFind_filter, denotes, Bool.and_comm]
  rw [FoundApart, scopesAfter_filter fun e => !e.binding.isTag,
    scopesAfter_filter fun e => e.binding.isTag]
  cases scopesAfter (fun _ => true) ops with
  | none => simp
  | some scope => simp [hidents, scopeFind_ident_iff, scopeFind_filter, scopeFindTag]

/-- After `int x; struct x { .. };` the variable is not found any more. -/
theorem tag_hides_variable : ¬ FoundApart
    [.add ⟨"x", .var ⟨"x", .int .int, false, 0⟩⟩, .add ⟨"x", .tag (.record 8)⟩] "x" := by
  rintro ⟨scope, idents, tags, hscope, hidents, -, hident, -⟩
  cases hscope
  cases hidents
  cases hident

end Wos.Wcc
