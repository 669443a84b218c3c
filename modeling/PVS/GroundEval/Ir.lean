import Mathlib.Data.Finset.Image
import Mathlib.Data.Finset.Union
import Mathlib.Logic.Function.Basic

/-! The intermediate representation of the C code generator and its values. -/

namespace PVS.GroundEval.IR

abbrev Var := ℕ

abbrev Name := String

/-- What the types of the variables decide. -/
structure VarTypes where
  /-- `ir-reference-type?` or `mpnumber-type?` -/
  isRef : Var → Bool
  isFuntype : Var → Bool
  isArraytype : Var → Bool
  /-- `ir2c-tcompatible-but` -/
  tcompatible : Var → Var → Bool

/-! ### Syntax -/

/-- The bound `fn(vars) + offset` of an index type. -/
structure Bound where
  fn : Name
  vars : List Var
  offset : ℤ
  deriving DecidableEq

inductive Literal
  | integer (n : ℤ)
  | bool (b : Bool)
  | string (s : String)
  | char (c : ℕ)
  | function (f : Name)
  | nil
  deriving DecidableEq

/-- `ir-func` -/
inductive Head (α : Type)
  | var (x : α)
  | fn (f : Name)
  deriving DecidableEq

/-- `ir-lhs` -/
inductive Lhs (α : Type)
  | index (x : α)
  | field (f : Name)
  deriving DecidableEq

/-- The expressions whose parts are variables. -/
inductive Flat (α : Type)
  | operand (x : α)
  | literal (c : Literal)
  | apply (f : Head α) (params args : List α)
  | record (fields : List (Name × α))
  | arrayLiteral (exprs : List α)
  | get (record : α) (field : Name)
  | lookup (array index : α)
  | update (target : α) (lhs : Lhs α) (rhs : α)
  deriving DecidableEq

/-- `ir-expr`. The `high` of a variable and of a range is what `ir-array?` of the type returns. -/
inductive Expr
  | flat (n : Flat Var)
  | letIn (lett : Bool) (x : Var) (high : Option Bound) (bind body : Expr)
  | lambda (xs : List Var) (high : Option Bound) (body : Expr)
  | forAll (x : Var) (low high : Bound) (body : Expr)
  | exist (x : Var) (low high : Bound) (body : Expr)
  | ift (c : Var) (thn els : Expr)
  deriving DecidableEq

variable {α β : Type}

def Head.map (f : α → β) : Head α → Head β
  | .var x => .var (f x)
  | .fn g => .fn g

def Head.operands : Head α → List α
  | .var x => [x]
  | .fn _ => []

def Lhs.map (f : α → β) : Lhs α → Lhs β
  | .index x => .index (f x)
  | .field g => .field g

def Lhs.operands : Lhs α → List α
  | .index x => [x]
  | .field _ => []

def Flat.map (f : α → β) : Flat α → Flat β
  | .operand x => .operand (f x)
  | .literal c => .literal c
  | .apply g params args => .apply (g.map f) (params.map f) (args.map f)
  | .record fields => .record (fields.map fun p => (p.1, f p.2))
  | .arrayLiteral xs => .arrayLiteral (xs.map f)
  | .get r g => .get (f r) g
  | .lookup a i => .lookup (f a) (f i)
  | .update t l r => .update (f t) (l.map f) (f r)

/-- The operands, in the order in which they are evaluated. -/
def Flat.operands : Flat α → List α
  | .operand x => [x]
  | .literal _ => []
  | .apply g params args => g.operands ++ (args ++ params)
  | .record fields => fields.map Prod.snd
  | .arrayLiteral xs => xs
  | .get r _ => [r]
  | .lookup a i => [a, i]
  | .update t l r => t :: (l.operands ++ [r])

/-- The operands for which `*array-expected*` is not reset. -/
def Flat.expectedOperands : Flat α → List α
  | .operand x => [x]
  | .record fields => fields.map Prod.snd
  | .update t _ _ => [t]
  | _ => []

theorem Flat.operands_map (f : α → β) (n : Flat α) : (n.map f).operands = n.operands.map f := by
  cases n with
  | apply g params args => cases g <;> simp [map, operands, Head.map, Head.operands]
  | update t l r => cases l <;> simp [map, operands, Lhs.map, Lhs.operands]
  | record fields => simp [map, operands]
  | _ => rfl

theorem Flat.expectedOperands_map (f : α → β) (n : Flat α) :
    (n.map f).expectedOperands = n.expectedOperands.map f := by
  cases n with
  | record fields => simp [map, expectedOperands]
  | _ => rfl

/-! ### Free variables -/

def Bound.freevars (b : Bound) : Finset Var := b.vars.toFinset

/-- The variables of `*array-expected*` for a type. -/
def arrayExpected : Option Bound → Finset Var
  | none => ∅
  | some b => b.freevars

section Freevars

variable (T : VarTypes)

/-- Some operand is a function where an array is expected. -/
def Flat.converts (n : Flat Var) : Bool := n.expectedOperands.any T.isFuntype

def Flat.freevars (exp : Finset Var) (n : Flat Var) : Finset Var :=
  n.operands.toFinset ∪ if n.converts T then exp else ∅

/-- `pvs2ir-freevars*`, where `exp` are the variables of `*array-expected*`. -/
def Expr.freevars (exp : Finset Var) : Expr → Finset Var
  | .flat n => n.freevars T exp
  | .letIn _ x high a b =>
    if x ∈ b.freevars exp then a.freevars (arrayExpected high) ∪ (b.freevars exp).erase x
    else b.freevars exp
  | .lambda xs high b => exp ∪ (b.freevars (arrayExpected high) \ xs.toFinset)
  | .forAll x low high b => (low.freevars ∪ high.freevars ∪ b.freevars exp).erase x
  | .exist x low high b => (low.freevars ∪ high.freevars ∪ b.freevars exp).erase x
  | .ift c a b => {c} ∪ (a.freevars exp ∪ b.freevars exp)

/-- The variables in scope are `scope`, and no binding hides one of them. -/
def Expr.WellScoped (scope : Finset Var) : Expr → Prop
  | .flat n => n.operands.toFinset ⊆ scope
  | .letIn _ x high a b => x ∉ scope ∧ arrayExpected high ⊆ scope ∧ a.WellScoped scope ∧
      b.WellScoped (insert x scope)
  | .lambda xs high b => xs.Nodup ∧ Disjoint xs.toFinset scope ∧
      arrayExpected high ⊆ scope ∪ xs.toFinset ∧ b.WellScoped (scope ∪ xs.toFinset)
  | .forAll x low high b => x ∉ scope ∧ low.freevars ⊆ scope ∧ high.freevars ⊆ scope ∧
      b.WellScoped (insert x scope)
  | .exist x low high b => x ∉ scope ∧ low.freevars ⊆ scope ∧ high.freevars ⊆ scope ∧
      b.WellScoped (insert x scope)
  | .ift c a b => c ∈ scope ∧ a.WellScoped scope ∧ b.WellScoped scope

/-- A variable that is the body of its own binding has the expected type. -/
def Expr.WellTyped (exp : Finset Var) : Expr → Prop
  | .flat _ => True
  | .letIn _ x high a b =>
    (b = .flat (.operand x) → arrayExpected high = exp ∨ T.isFuntype x = true ∧ high = none) ∧
      a.WellTyped (arrayExpected high) ∧ b.WellTyped exp
  | .lambda _ high b => b.WellTyped (arrayExpected high)
  | .forAll _ _ _ b => b.WellTyped exp
  | .exist _ _ _ b => b.WellTyped exp
  | .ift _ a b => a.WellTyped exp ∧ b.WellTyped exp

end Freevars

/-- The variables that occur and are not bound, also in types and in bindings that are not used. -/
def Expr.free : Expr → Finset Var
  | .flat n => n.operands.toFinset
  | .letIn _ x high a b => arrayExpected high ∪ a.free ∪ b.free.erase x
  | .lambda xs high b => (arrayExpected high ∪ b.free) \ xs.toFinset
  | .forAll x low high b => low.freevars ∪ high.freevars ∪ b.free.erase x
  | .exist x low high b => low.freevars ∪ high.freevars ∪ b.free.erase x
  | .ift c a b => {c} ∪ (a.free ∪ b.free)

instance Expr.decidableWellScoped : (scope : Finset Var) → (e : Expr) → Decidable (e.WellScoped scope)
  | scope, .flat n => inferInstanceAs (Decidable (n.operands.toFinset ⊆ scope))
  | scope, .letIn _ x high a b =>
    have := decidableWellScoped scope a
    have := decidableWellScoped (insert x scope) b
    inferInstanceAs (Decidable (x ∉ scope ∧ arrayExpected high ⊆ scope ∧ _ ∧ _))
  | scope, .lambda xs high b =>
    have := decidableWellScoped (scope ∪ xs.toFinset) b
    inferInstanceAs (Decidable (xs.Nodup ∧ Disjoint xs.toFinset scope ∧
      arrayExpected high ⊆ scope ∪ xs.toFinset ∧ _))
  | scope, .forAll x low high b | scope, .exist x low high b =>
    have := decidableWellScoped (insert x scope) b
    inferInstanceAs (Decidable (x ∉ scope ∧ low.freevars ⊆ scope ∧ high.freevars ⊆ scope ∧ _))
  | scope, .ift c a b =>
    have := decidableWellScoped scope a
    have := decidableWellScoped scope b
    inferInstanceAs (Decidable (c ∈ scope ∧ _ ∧ _))

instance Expr.decidableWellTyped (T : VarTypes) :
    (exp : Finset Var) → (e : Expr) → Decidable (e.WellTyped T exp)
  | _, .flat _ => .isTrue trivial
  | exp, .letIn _ x high a b =>
    have := decidableWellTyped T (arrayExpected high) a
    have := decidableWellTyped T exp b
    inferInstanceAs (Decidable ((b = .flat (.operand x) →
      arrayExpected high = exp ∨ T.isFuntype x = true ∧ high = none) ∧ _ ∧ _))
  | _, .lambda _ high b => decidableWellTyped T (arrayExpected high) b
  | exp, .forAll _ _ _ b | exp, .exist _ _ _ b => decidableWellTyped T exp b
  | exp, .ift _ a b =>
    have := decidableWellTyped T exp a
    have := decidableWellTyped T exp b
    inferInstanceAs (Decidable (_ ∧ _))

/-! ### Values -/

/-- The values and the operations of the generated code; arrays are functions here. -/
structure Ops (V : Type) where
  literal : Literal → V
  fn : Name → List V → V
  app : V → List V → V
  /-- The function of `n` arguments. -/
  lambda : (n : ℕ) → ((ℕ → V) → V) → V
  record : List (Name × V) → V
  array : List V → V
  get : V → Name → V
  lookup : V → V → V
  update : V → V → V → V
  updateField : V → Name → V → V
  offset : V → ℤ → V
  /-- The values of the index between the bounds, in order. -/
  indices : V → V → List V
  isTrue : V → Bool

variable {V : Type} (ops : Ops V)

def Bound.value (env : Var → V) (b : Bound) : V := ops.offset (ops.fn b.fn (b.vars.map env)) b.offset

def Flat.value (env : α → V) : Flat α → V
  | .operand x => env x
  | .literal c => ops.literal c
  | .apply (.var f) params args => ops.app (env f) (params.map env ++ args.map env)
  | .apply (.fn f) params args => ops.fn f (params.map env ++ args.map env)
  | .record fields => ops.record (fields.map fun p => (p.1, env p.2))
  | .arrayLiteral xs => ops.array (xs.map env)
  | .get r g => ops.get (env r) g
  | .lookup a i => ops.lookup (env a) (env i)
  | .update t (.index i) r => ops.update (env t) (env i) (env r)
  | .update t (.field g) r => ops.updateField (env t) g (env r)

/-- The loop of a quantifier: it ends after the first body for which `go` does not hold. -/
def loopWhile (go : V → Bool) (body : V → V) : V → List V → V
  | r, [] => r
  | _, i :: is => if go (body i) then loopWhile go body (body i) is else body i

def bindAll (env : Var → V) (xs : List Var) (args : ℕ → V) : Var → V :=
  fun v => if v ∈ xs then args (xs.idxOf v) else env v

def Expr.value (env : Var → V) : Expr → V
  | .flat n => n.value ops env
  | .letIn _ x _ a b => b.value (Function.update env x (a.value env))
  | .lambda xs _ b => ops.lambda xs.length fun args => b.value (bindAll env xs args)
  | .forAll x low high b =>
    loopWhile ops.isTrue (fun i => b.value (Function.update env x i)) (ops.literal (.bool true))
      (ops.indices (low.value ops env) (high.value ops env))
  | .exist x low high b =>
    loopWhile (fun v => !ops.isTrue v) (fun i => b.value (Function.update env x i))
      (ops.literal (.bool false)) (ops.indices (low.value ops env) (high.value ops env))
  | .ift c a b => if ops.isTrue (env c) then a.value env else b.value env

attribute [local simp] Expr.free Expr.freevars Expr.WellScoped Expr.value

theorem Flat.value_map (f : α → β) (env : β → V) (n : Flat α) :
    (n.map f).value ops env = n.value ops fun x => env (f x) := by
  cases n with
  | apply g params args => cases g <;> simp [map, value, Head.map, Function.comp_def]
  | update t l r => cases l <;> simp [map, value, Lhs.map]
  | record fields => simp [map, value, Function.comp_def]
  | arrayLiteral xs => simp [map, value, Function.comp_def]
  | _ => rfl

end PVS.GroundEval.IR
