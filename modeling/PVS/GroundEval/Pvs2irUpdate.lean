import PVS.GroundEval.PreprocessRenaming

/-! Update expressions and their translation. -/

namespace PVS.GroundEval.Pvs2ir

open IR

/-! ### Types -/

/-- `ir-type`; the types without components are all `scalar`. -/
inductive IrType
  | funtype (domain range : IrType)
  | arraytype (high : Bound) (domain range : IrType)
  | recordtype (fieldTypes : List (Name × IrType))
  | adtRecordtype (fieldTypes : List (Name × IrType))
  | tupletype (fieldTypes : List (Name × IrType))
  | typename (id : Name) (defn : IrType)
  | formalTypename (id : Name)
  | scalar (id : Name)

namespace IrType

/-- `ir-array?` -/
def isArray : IrType → Option Bound
  | arraytype high _ _ => some high
  | typename _ defn => defn.isArray
  | _ => none

/-- `ir-reference-type?` -/
def isReferenceType : IrType → Bool
  | typename id defn => id = "file__file" || defn.isReferenceType
  | scalar _ => false
  | _ => true

/-- The type for which the methods on `ir-typename` call themselves again. -/
def typeDefn : IrType → IrType
  | typename _ defn => defn.typeDefn
  | t => t

/-- `ir-tuple-args` -/
def tupleArgs : IrType → List IrType
  | tupletype fieldTypes => fieldTypes.map Prod.snd
  | t => [t]

/-- The length of `new-irvartypes` of the `ir-tuple-args`. -/
def arity (domain : IrType) : ℕ :=
  match domain.tupleArgs with
  | [] => 1
  | ts => ts.length

/-- The component of a record, or of a datatype. -/
def fieldType (id : Name) (accessorRange : Option IrType) : IrType → Option IrType
  | recordtype fieldTypes | tupletype fieldTypes => fieldTypes.lookup id
  | adtRecordtype _ => accessorRange
  | _ => none

end IrType

/-- `ir-variable` -/
structure IrVariable where
  name : Var
  vtype : IrType

/-! ### Bindings -/

def mkIrLet (x : IrVariable) (expr body : Expr) : Expr :=
  .letIn false x.name x.vtype.isArray expr body

section MakeIrLet

variable (T : VarTypes)

/-- `make-ir-let`, where `counter` is the next variable. -/
def makeIrLet (x : IrVariable) (expr body : Expr) (counter : ℕ) : Expr × ℕ :=
  if x.name ∈ body.freevars T ∅ then
    match expr, x.vtype with
    | .flat (.literal (.function f)), .funtype domain range =>
      let args := List.range' counter domain.arity
      (mkIrLet x (.lambda args range.isArray (.flat (.apply (.fn f) [] args))) body,
        counter + domain.arity)
    | _, _ => (mkIrLet x expr body, counter)
  else (body, counter)

/-- `make-ir-let*` -/
def makeIrLets : List IrVariable → List Expr → Expr → ℕ → Expr × ℕ
  | x :: xs, expr :: exprs, body, counter =>
    let rest := makeIrLets xs exprs body counter
    makeIrLet T x expr rest.1 rest.2
  | _, _, body, counter => (body, counter)

end MakeIrLet

/-! ### Update expressions -/

section Syntax

variable {V : Type}

/-- The value depends on the free variables only. -/
def LocalValue (T : VarTypes) (ops : Ops V) (e : Expr) : Prop :=
  ∀ env env' : Var → V, (∀ v ∈ e.freevars T ∅, env v = env' v) → e.value ops env = e.value ops env'

/-- An expression that another method of `pvs2ir*` translates; `N` are its variables. -/
structure Other (T : VarTypes) (ops : Ops V) (N : Type) where
  value : (N → V) → V
  pvs2ir : (N → Var) → ℕ → Expr × ℕ
  counter_le : ∀ bindings counter, counter ≤ (pvs2ir bindings counter).2
  localValue : ∀ bindings counter, LocalValue T ops (pvs2ir bindings counter).1
  value_pvs2ir : ∀ bindings counter env, (∀ x, bindings x < counter) →
    (pvs2ir bindings counter).1.value ops env = value fun x => env (bindings x)

variable (T : VarTypes) (ops : Ops V) (N : Type)

mutual

inductive PvsExpr
  | other (e : Other T ops N)
  | update (expression : PvsExpr) (type : IrType) (assignments : Assignments)

inductive Assignments
  | nil
  | cons (arguments : Arguments) (expression : PvsExpr) (rest : Assignments)

/-- What is on the left of an assignment. The arguments of a list are one tuple, and the field of an
`accessor-assign` comes with the range of its type. -/
inductive Arguments
  | nil
  | args (index : PvsExpr) (rest : Arguments)
  | field (id : Name) (accessorRange : Option IrType) (rest : Arguments)

end

end Syntax

variable {V N : Type} {T : VarTypes} {ops : Ops V}

def Arguments.consp : Arguments T ops N → Bool
  | .nil => false
  | _ => true

@[simp] theorem Arguments.consp_args (index : PvsExpr T ops N) (rest : Arguments T ops N) :
    (Arguments.args index rest).consp = true := rfl

@[simp] theorem Arguments.consp_field (id : Name) (accessorRange : Option IrType)
    (rest : Arguments T ops N) : (Arguments.field id accessorRange rest).consp = true := rfl

/-! ### What an update means -/

section Override

variable (ops)

def fetch (a : V) : IR.Lhs V → V
  | .index i => ops.app a [i]
  | .field g => ops.get a g

def store (a : V) (l : IR.Lhs V) (r : V) : V :=
  match l with
  | .index i => ops.update a i r
  | .field g => ops.updateField a g r

/-- `a WITH [l₁ ⋯ lₙ := r]` -/
def override : List (IR.Lhs V) → V → V → V
  | [], _, r => r
  | l :: ls, a, r => store ops a l (override ls (fetch ops a l) r)

end Override

mutual

def PvsExpr.value (env : N → V) : PvsExpr T ops N → V
  | .other e => e.value env
  | .update e _ assignments => assignments.override env (e.value env)

/-- The assignments in order, each with its indices and its right side in `env`. -/
def Assignments.override (env : N → V) : Assignments T ops N → V → V
  | .nil, a => a
  | .cons lhs e rest, a =>
    rest.override env (Pvs2ir.override ops (lhs.steps env) a (e.value env))

def Arguments.steps (env : N → V) : Arguments T ops N → List (IR.Lhs V)
  | .nil => []
  | .args index rest => .index (index.value env) :: rest.steps env
  | .field id _ rest => .field id :: rest.steps env

end

/-! ### Translation -/

/-- `get-component-ir-type`, where `none` is an error. -/
def Arguments.getComponentIrType : Arguments T ops N → IrType → Option IrType
  | .nil, type => some type
  | .args _ rest, type =>
    match type.typeDefn with
    | .funtype _ range | .arraytype _ _ range => rest.getComponentIrType range
    | .recordtype _ | .adtRecordtype _ | .tupletype _ => none
    | t => some t
  | .field id accessorRange rest, type =>
    match type.typeDefn with
    | .funtype _ range | .arraytype _ _ range => rest.getComponentIrType range
    | .recordtype fields | .adtRecordtype fields | .tupletype fields =>
      match accessorRange <|> fields.lookup id with
      | some t => rest.getComponentIrType t
      | none => none
    | t => some t

def Assignments.irRhsTypes (type : IrType) : Assignments T ops N → Option (List IrType)
  | .nil => some []
  | .cons lhs _ rest => do
    let t ← lhs.getComponentIrType type
    let ts ← rest.irRhsTypes type
    return t :: ts

/-- `*update-lhs-vars*` and `*update-lhs-bindings*`, with the next variable -/
structure State where
  counter : ℕ
  updateLhsVars : List IrVariable
  updateLhsBindings : List Expr

def operand (x : IrVariable) : Expr := .flat (.operand x.name)

/-- `ir-apply` or `ir-get` -/
def mkIrFetch (x : IrVariable) : IR.Lhs Var → Expr
  | .index i => .flat (.apply (.var x.name) [] [i])
  | .field g => .flat (.get x.name g)

def mkIrUpdate (x : IrVariable) (lhs : IR.Lhs Var) (rhs : IrVariable) : Expr :=
  .flat (.update x.name lhs rhs.name)

/-- The bindings that every method of `pvs2ir-assignment1` ends with: the component `x11` of `x` is
replaced by `nil` where it is a reference, and then by its update. -/
def assignComponent (type : IrType) (x x11 : IrVariable) (lhs : IR.Lhs Var) (restAssignment : Expr)
    (s : State) : Expr × State :=
  let x1 : IrVariable := ⟨s.counter, type⟩
  let newRhs : IrVariable := ⟨s.counter + 1, x11.vtype⟩
  let null : IrVariable := ⟨s.counter + 2, x11.vtype⟩
  let isReference := x11.vtype.isReferenceType
  (mkIrLet x11 (mkIrFetch x lhs)
    (mkIrLet x1
      (if isReference then mkIrLet null (.flat (.literal .nil)) (mkIrUpdate x lhs null)
        else operand x)
      (mkIrLet newRhs restAssignment (mkIrUpdate x1 lhs newRhs))),
    { s with counter := if isReference then s.counter + 3 else s.counter + 2 })

section Update

variable (T)

/-- `pvs2ir-update`, with the types, the right sides and the updates of its assignments -/
def pvs2irUpdate (irRhsTypes : Option (List IrType)) (irRhsList : ℕ → Option (List Expr × ℕ))
    (irAssignments : List IrVariable → IrVariable → State → Option (Expr × State))
    (irExpression : Expr) (type : IrType) (counter : ℕ) : Option (Expr × ℕ) := do
  let irRhsTypes ← irRhsTypes
  let rhsVars := List.zipWith IrVariable.mk (List.range' counter irRhsTypes.length) irRhsTypes
  let (irRhsList, counter) ← irRhsList (counter + irRhsTypes.length)
  let exprvar : IrVariable := ⟨counter, type⟩
  let (irUpdateExpr, s) ← irAssignments rhsVars exprvar ⟨counter + 1, [], []⟩
  let (inner, counter) := makeIrLet T exprvar irExpression irUpdateExpr s.counter
  let (middle, counter) := makeIrLets T rhsVars irRhsList inner counter
  return makeIrLets T s.updateLhsVars.reverse s.updateLhsBindings.reverse middle counter

end Update

mutual

/-- `pvs2ir*`, where `none` is an error -/
def PvsExpr.pvs2ir (bindings : N → Var) : PvsExpr T ops N → ℕ → Option (Expr × ℕ)
  | .other e, counter => some (e.pvs2ir bindings counter)
  | .update e type assignments, counter => do
    let (irExpression, counter) ← e.pvs2ir bindings counter
    pvs2irUpdate T (assignments.irRhsTypes type) (assignments.irRhsList bindings)
      (assignments.pvs2irAssignments bindings type) irExpression type counter

def Assignments.irRhsList (bindings : N → Var) :
    Assignments T ops N → ℕ → Option (List Expr × ℕ)
  | .nil, counter => some ([], counter)
  | .cons _ e rest, counter => do
    let (ir, counter) ← e.pvs2ir bindings counter
    let (irs, counter) ← rest.irRhsList bindings counter
    return (ir :: irs, counter)

def Assignments.pvs2irAssignments (bindings : N → Var) (type : IrType) :
    Assignments T ops N → List IrVariable → IrVariable → State → Option (Expr × State)
  | .nil, _, x, s => some (operand x, s)
  | .cons _ _ _, [], _, _ => none
  | .cons lhs _ rest, rhs :: rhsVars, x, s => do
    let (assignment1, s) ← lhs.pvs2irAssignment1 bindings type rhs x s
    let var1 : IrVariable := ⟨s.counter, type⟩
    let (body, s) ← rest.pvs2irAssignments bindings type rhsVars var1
      { s with counter := s.counter + 1 }
    return (mkIrLet var1 assignment1 body, s)

/-- The update of `x`, which has the type `type`, by `rhs`. -/
def Arguments.pvs2irAssignment1 (bindings : N → Var) :
    Arguments T ops N → IrType → IrVariable → IrVariable → State → Option (Expr × State)
  | .nil, type, _, x, s =>
    match type.typeDefn with
    | .funtype .. | .arraytype .. | .recordtype _ | .adtRecordtype _ | .tupletype _ =>
      some (operand x, s)
    | _ => none
  | .args index rest, type, rhs, x, s =>
    match type.typeDefn with
    | .funtype domain range | .arraytype _ domain range => do
      let x11 : IrVariable := ⟨s.counter, range⟩
      let s := { s with counter := s.counter + 1 }
      let assignment :=
        if rest.consp then rest.pvs2irAssignment1 bindings range rhs x11 s
        else some (operand rhs, s)
      let (restAssignment, s) ← assignment
      let lhs1 : IrVariable := ⟨s.counter, domain⟩
      let (lhs1Ir, counter) ← index.pvs2ir bindings (s.counter + 1)
      return assignComponent type.typeDefn x x11 (.index lhs1.name) restAssignment
        ⟨counter, lhs1 :: s.updateLhsVars, lhs1Ir :: s.updateLhsBindings⟩
    | _ => none
  | .field id accessorRange rest, type, rhs, x, s =>
    match type.typeDefn.fieldType id accessorRange with
    | none => none
    | some t => do
      let x11 : IrVariable := ⟨s.counter, t⟩
      let s := { s with counter := s.counter + 1 }
      let assignment :=
        if rest.consp then rest.pvs2irAssignment1 bindings t rhs x11 s
        else some (operand rhs, s)
      let (restAssignment, s) ← assignment
      return assignComponent type.typeDefn x x11 (.field id) restAssignment s

end

/-! ### Expressions that typecheck -/

section Typechecks

variable (arities : Name → ℕ)

/-- A function is bound to a variable whose type has the arguments of the function. -/
def FitsType (type : IrType) (e : Expr) : Prop :=
  ∀ f domain range, e = .flat (.literal (.function f)) → type = .funtype domain range →
    domain.arity = arities f

def PvsExpr.Fits (type : IrType) : PvsExpr T ops N → Prop
  | .other e => ∀ bindings counter, FitsType arities type (e.pvs2ir bindings counter).1
  | .update .. => True

mutual

def PvsExpr.Typechecks : PvsExpr T ops N → Prop
  | .other _ => True
  | .update e type assignments =>
    e.Typechecks ∧ e.Fits arities type ∧ assignments.Typechecks type

def Assignments.Typechecks (type : IrType) : Assignments T ops N → Prop
  | .nil => True
  | .cons lhs e rest => lhs.consp = true ∧ lhs.Typechecks type ∧ e.Typechecks ∧
      (∀ t, lhs.getComponentIrType type = some t → e.Fits arities t) ∧ rest.Typechecks type

def Arguments.Typechecks : Arguments T ops N → IrType → Prop
  | .nil, _ => True
  | .args index rest, type =>
    match type.typeDefn with
    | .funtype domain range | .arraytype _ domain range =>
      index.Typechecks ∧ index.Fits arities domain ∧ rest.Typechecks range
    | _ => False
  | .field id accessorRange rest, type =>
    match type.typeDefn with
    | .recordtype fields | .tupletype fields =>
      accessorRange = none ∧ ∃ t, fields.lookup id = some t ∧ rest.Typechecks t
    | .adtRecordtype _ => ∃ t, accessorRange = some t ∧ rest.Typechecks t
    | _ => False

end

/-- What is asked of values: the later of two updates of one component is what remains, and a
function is the λ-abstraction of its application. -/
structure LawfulUpdates (ops : Ops V) : Prop where
  store_store : ∀ a l r r', store ops (store ops a l r) l r' = store ops a l r'
  eta : ∀ f, ops.lambda (arities f)
    (fun args => ops.fn f ((List.range (arities f)).map args)) = ops.literal (.function f)

end Typechecks

attribute [local simp] makeIrLet makeIrLets

end PVS.GroundEval.Pvs2ir
