import PVS.GroundEval.Ir

/-! Preprocessing: last occurrences are marked, and copied variables are renamed. -/

namespace PVS.GroundEval.IR

/-! ### Preprocessed expressions -/

/-- A variable or, at its last occurrence, `ir-last` of it. -/
structure Operand where
  var : Var
  last : Bool
  deriving DecidableEq

inductive Marked
  | flat (n : Flat Operand)
  | letIn (lett : Bool) (x : Var) (high : Option Bound) (bind body : Marked)
  | lambda (xs : List Var) (lastvars : Finset Var) (high : Option Bound) (body : Marked)
  | forAll (x : Var) (low high : Bound) (body : Marked)
  /-- An expression that is left as it was, with the `ir-freevars` that are kept in it. -/
  | exist (freevars : Finset Var) (x : Var) (low high : Bound) (body : Expr)
  | ift (c : Operand) (thn els : Marked)
  | release (pre post : Finset Var) (body : Marked)
  deriving DecidableEq

section

variable (T : VarTypes)

/-- `pvs2ir-freevars*` -/
def Marked.freevars (exp : Finset Var) : Marked → Finset Var
  | .flat n => (n.map Operand.var).freevars T exp
  | .letIn _ x high a b =>
    if x ∈ b.freevars exp then a.freevars (arrayExpected high) ∪ (b.freevars exp).erase x
    else b.freevars exp
  | .lambda xs _ high b => exp ∪ (b.freevars (arrayExpected high) \ xs.toFinset)
  | .forAll x low high b => (low.freevars ∪ high.freevars ∪ b.freevars exp).erase x
  | .exist freevars _ _ _ _ => freevars
  | .ift c a b => {c.var} ∪ (a.freevars exp ∪ b.freevars exp)
  | .release _ _ b => b.freevars exp

end

/-- The variables that occur and are not bound. -/
def Marked.free : Marked → Finset Var
  | .flat n => (n.operands.map Operand.var).toFinset
  | .letIn _ x high a b => arrayExpected high ∪ a.free ∪ b.free.erase x
  | .lambda xs lastvars high b => lastvars ∪ ((arrayExpected high ∪ b.free) \ xs.toFinset)
  | .forAll x low high b => low.freevars ∪ high.freevars ∪ b.free.erase x
  | .exist _ x low high b => (Expr.exist x low high b).free
  | .ift c a b => {c.var} ∪ (a.free ∪ b.free)
  | .release pre post b => pre ∪ post ∪ b.free

def Marked.value {V : Type} (ops : Ops V) (env : Var → V) : Marked → V
  | .flat n => n.value ops fun o => env o.var
  | .letIn _ x _ a b => b.value ops (Function.update env x (a.value ops env))
  | .lambda xs _ _ b => ops.lambda xs.length fun args => b.value ops (bindAll env xs args)
  | .forAll x low high b =>
    loopWhile ops.isTrue (fun i => b.value ops (Function.update env x i))
      (ops.literal (.bool true)) (ops.indices (low.value ops env) (high.value ops env))
  | .exist _ x low high b => (Expr.exist x low high b).value ops env
  | .ift c a b => if ops.isTrue (env c.var) then a.value ops env else b.value ops env
  | .release _ _ b => b.value ops env

/-! ### Renaming and marking -/

/-- An association list, of variables and what they are renamed to. -/
abbrev Bindings := List (Var × Var)

def getAssoc (bindings : Bindings) (x : Var) : Var := (bindings.lookup x).getD x

def applyBindings (bindings : Bindings) (vars : Finset Var) : Finset Var :=
  vars.image (getAssoc bindings)

/-- `preprocess-in-type` -/
def Bound.preprocess (bindings : Bindings) (b : Bound) : Bound :=
  { b with vars := b.vars.map (getAssoc bindings) }

section Preprocess

variable (T : VarTypes)

/-- `preprocess-ir*` of a variable. -/
def preprocessVar (livevars : Finset Var) (bindings : Bindings) (x : Var) : Operand :=
  ⟨getAssoc bindings x, getAssoc bindings x ∉ livevars⟩

/-- `preprocess-ir*` of a list of variables. -/
def preprocessVars (livevars : Finset Var) (bindings : Bindings) : List Var → List Operand
  | [] => []
  | x :: xs => preprocessVar (applyBindings bindings xs.toFinset ∪ livevars) bindings x ::
      preprocessVars livevars bindings xs

/-- `preprocess-ir*` of a list of fields. -/
def preprocessFields (livevars : Finset Var) (bindings : Bindings) :
    List (Name × Var) → List (Name × Operand)
  | [] => []
  | (f, x) :: fs =>
    (f, preprocessVar (applyBindings bindings (fs.map Prod.snd).toFinset ∪ livevars) bindings x) ::
      preprocessFields livevars bindings fs

/-- `pvs2ir-freevars` of a list of variables. -/
def varsFreevars (exp : Finset Var) (xs : List Var) : Finset Var :=
  xs.toFinset ∪ if xs.any T.isFuntype then exp else ∅

def Flat.preprocess (exp livevars : Finset Var) (bindings : Bindings) : Flat Var → Flat Operand
  | .operand x => .operand (preprocessVar livevars bindings x)
  | .literal c => .literal c
  | .apply f params args =>
    let paramsWithBindings := applyBindings bindings (varsFreevars T exp params)
    let argsWithBindings := applyBindings bindings (varsFreevars T exp args)
    .apply (f.map (preprocessVar (paramsWithBindings ∪ (argsWithBindings ∪ livevars)) bindings))
      (preprocessVars livevars bindings params)
      (preprocessVars (paramsWithBindings ∪ livevars) bindings args)
  | .record fields => .record (preprocessFields livevars bindings fields)
  | .arrayLiteral xs => .arrayLiteral (preprocessVars livevars bindings xs)
  | .get r f => .get (preprocessVar livevars bindings r) f
  | .lookup a i => .lookup (preprocessVar livevars bindings a) (preprocessVar livevars bindings i)
  | .update t l r =>
    .update (preprocessVar livevars bindings t) (l.map (preprocessVar livevars bindings))
      (preprocessVar livevars bindings r)

def Marked.operand? : Marked → Option Operand
  | .flat (.operand o) => some o
  | _ => none

/-- The variable that takes the place of `x` when `x` is bound to `o`. -/
def replacement (lett : Bool) (x : Var) (o : Option Operand) : Option Var :=
  o.bind fun o => if (o.last ∨ lett = false) ∧ T.tcompatible x o.var then some o.var else none

def mkIrRelease (vars : Finset Var) (p : Marked) : Marked :=
  if vars = ∅ then p else .release vars ∅ p

/-- `preprocess-ir*`, where `exp` are the variables of `*array-expected*`. -/
def preprocessIr (exp livevars : Finset Var) (bindings : Bindings) : Expr → Marked
  | .flat n => .flat (n.preprocess T exp livevars bindings)
  | .letIn lett x high a b =>
    if x ∈ b.freevars T exp then
      let livevarsWithBody := applyBindings bindings (b.freevars T exp) ∪ livevars
      let newBind := preprocessIr (arrayExpected high) livevarsWithBody bindings a
      if b = .flat (.operand x) ∧ T.isArraytype x = false then newBind
      else
        match replacement T lett x newBind.operand? with
        | some y => preprocessIr exp livevars ((x, y) :: bindings) b
        | none => .letIn lett x (high.map (Bound.preprocess bindings)) newBind
            (preprocessIr exp livevars bindings b)
    -- a binding that is not used is discarded
    else preprocessIr exp livevars bindings b
  | .lambda xs high b =>
    let exprFreevars := applyBindings bindings ((Expr.lambda xs high b).freevars T exp)
    .lambda xs (exprFreevars \ livevars) (high.map (Bound.preprocess bindings))
      (preprocessIr (arrayExpected high) (exprFreevars ∪ livevars) bindings b)
  | .forAll x low high b =>
    if x ∈ b.freevars T ∅ then
      .forAll x (low.preprocess bindings) (high.preprocess bindings)
        (preprocessIr exp livevars bindings b)
    else preprocessIr exp livevars bindings b
  -- there is no method for this class
  | .exist x low high b =>
    .exist (applyBindings bindings ((Expr.exist x low high b).freevars T exp)) x low high b
  | .ift c a b =>
    let preThen := preprocessIr exp livevars bindings a
    let preElse := preprocessIr exp livevars bindings b
    let thenFreevars := applyBindings bindings (preThen.freevars T exp)
    let elseFreevars := applyBindings bindings (preElse.freevars T exp)
    let thenMarked := thenFreevars \ livevars
    let elseMarked := elseFreevars \ livevars
    .ift (preprocessVar (thenFreevars ∪ (elseFreevars ∪ livevars)) bindings c)
      (mkIrRelease (elseMarked \ thenMarked) preThen)
      (mkIrRelease (thenMarked \ elseMarked) preElse)

end Preprocess

end PVS.GroundEval.IR
