import Mathlib.Tactic.Common
import Mathlib.Logic.Function.Basic

/-! The judgement types of expressions and the table that keeps them. -/

namespace PVS.Judgements

/-- Variables of lambda bindings, expressions with an operator, and applications of a lambda. -/
inductive LExpr (X K : Type) where
  | var (x : X)
  | node (k : K) (args : List (LExpr X K))
  | tuple (exprs : List (LExpr X K))
  | letApp (bindings : List X) (body arg : LExpr X K)

namespace LExpr

variable {X K : Type}

/-- `get-operator*-expression` of an application of a lambda is that of its body. -/
def operatorExpression : LExpr X K → LExpr X K
  | .letApp _ body _ => body.operatorExpression
  | e => e

/-- The variables of the lambdas that are passed. -/
def passed : LExpr X K → List X
  | .letApp bindings body _ => bindings ++ body.passed
  | _ => []

/-- `argument-list` -/
def argumentList : LExpr X K → List (LExpr X K)
  | .tuple exprs => exprs
  | e => [e]

/-- The arguments for the bindings -/
def arguments (bindings : List X) (arg : LExpr X K) : List (LExpr X K) :=
  if bindings.tail.isEmpty then [arg] else arg.argumentList

def IsVar (e : LExpr X K) : Prop := ∃ x, e = .var x

section DecidableEq

variable [DecidableEq X] [DecidableEq K]

mutual

def beq : LExpr X K → LExpr X K → Bool
  | .var x, .var y => x = y
  | .node k args, .node l args' => k = l && beqList args args'
  | .tuple exprs, .tuple exprs' => beqList exprs exprs'
  | .letApp bindings body arg, .letApp bindings' body' arg' =>
    bindings = bindings' && beq body body' && beq arg arg'
  | _, _ => false

def beqList : List (LExpr X K) → List (LExpr X K) → Bool
  | [], [] => true
  | e :: es, e' :: es' => beq e e' && beqList es es'
  | _, _ => false

end

mutual

theorem beq_iff : ∀ e e' : LExpr X K, beq e e' = true ↔ e = e'
  | .var x, e' => by cases e' <;> simp [beq]
  | .node k args, e' => by
    cases e' with
    | node l args' => simp [beq, beqList_iff args args']
    | _ => simp [beq]
  | .tuple exprs, e' => by
    cases e' with
    | tuple exprs' => simp [beq, beqList_iff exprs exprs']
    | _ => simp [beq]
  | .letApp bindings body arg, e' => by
    cases e' with
    | letApp bindings' body' arg' =>
      simp [beq, beq_iff body body', beq_iff arg arg', and_assoc]
    | _ => simp [beq]

theorem beqList_iff : ∀ es es' : List (LExpr X K), beqList es es' = true ↔ es = es'
  | [], es' => by cases es' <;> simp [beqList]
  | e :: es, es' => by
    cases es' with
    | nil => simp [beqList]
    | cons e' es' => simp [beqList, beq_iff e e', beqList_iff es es']

end

instance : DecidableEq (LExpr X K) := fun e e' => decidable_of_iff _ (beq_iff e e')

end DecidableEq

theorem one_le_sizeOf (e : LExpr X K) : 1 ≤ sizeOf e := by
  cases e with
  | var x => simp
  | node k args => simp
  | tuple exprs => simp
  | letApp bindings body arg => rw [letApp.sizeOf_spec]; omega

theorem sizeOf_operatorExpression_le (e : LExpr X K) : sizeOf e.operatorExpression ≤ sizeOf e := by
  induction e using operatorExpression.induct with
  | case1 bindings body arg ih =>
    rw [operatorExpression, letApp.sizeOf_spec]
    omega
  | case2 e h => exact Nat.le_of_eq (congrArg sizeOf (operatorExpression.eq_2 e h))

theorem sizeOf_arguments_le (bindings : List X) (arg : LExpr X K) :
    sizeOf (arg.arguments bindings) ≤ sizeOf arg + 2 := by
  have hsingle : sizeOf [arg] = sizeOf arg + 2 := by simp; omega
  rw [arguments]
  split
  · exact Nat.le_of_eq hsingle
  · cases arg with
    | tuple exprs => rw [argumentList, tuple.sizeOf_spec]; omega
    | _ => exact Nat.le_of_eq hsingle

theorem sizeOf_arguments_lt (bindings : List X) (body arg : LExpr X K) :
    sizeOf (arg.arguments bindings) < sizeOf (letApp bindings body arg) := by
  have hle := sizeOf_arguments_le bindings arg
  have hbody := one_le_sizeOf body
  have hbindings : 1 ≤ sizeOf bindings := by cases bindings <;> simp
  rw [letApp.sizeOf_spec]
  omega

end LExpr

/-- What is computed from the types of the sub-expressions. `J` are the values of
`judgement-types*`: lists of types, and vectors of such for tuples. -/
structure JudgementSyntax (X K Ty J : Type) where
  bindingType : X → Ty
  subtypeOf : Ty → Ty → Bool
  nil : J
  isNil : J → Bool
  /-- The method of the operator, on what `judgement-types*` returns for the arguments. -/
  nodeTypes : LExpr X K → List J → J
  /-- The arguments are looked at again, with `judgement-types+`. -/
  again : LExpr X K → List J → Bool
  againTypes : LExpr X K → List (List Ty) → J
  tupleTypes : LExpr X K → List J → J
  /-- The types with those of the judgements on expressions appended -/
  exprJudgementTypes : LExpr X K → J → J
  substJudgementTypes : J → List X → LExpr X K → J
  /-- `remove-judgement-types-of-type` for the type of the expression -/
  removeTypes : LExpr X K → J → J
  /-- What `judgement-types+` makes of the judgement types. -/
  typesPlus : LExpr X K → J → List Ty
  componentTypes : List Ty → List (List Ty)
  appendTypes : List Ty → J → J
  isNil_iff : ∀ j, isNil j = true ↔ j = nil
  removeTypes_nil : ∀ e, removeTypes e nil = nil

/-- `judgement-types-hash` -/
abbrev JudgementTable (X K J : Type) := LExpr X K → Option J

namespace JudgementSyntax

variable {X K Ty J : Type} (S : JudgementSyntax X K Ty J)

/-- The types of an argument that its binding does not have -/
def newTypes (b : X) (atypes : List Ty) : List Ty :=
  atypes.filter fun aty => !S.subtypeOf (S.bindingType b) aty

/-- What is returned for an application of a lambda expression. -/
def letTypes (e : LExpr X K) (bindings : List X) (arg : LExpr X K) (ljtypes : J) : J :=
  if S.isNil ljtypes then S.nil
  else S.removeTypes e (S.substJudgementTypes ljtypes bindings arg)

section Table

variable [DecidableEq X] [DecidableEq (LExpr X K)]

/-- The `:around` method of `judgement-types*`, of which the last argument is the next method. -/
def around (e : LExpr X K) (t : JudgementTable X K J) (next : J × JudgementTable X K J) :
    J × JudgementTable X K J :=
  match t e with
  | some jtypes => (jtypes, t)
  | none =>
    let jtypes := S.exprJudgementTypes e next.1
    (jtypes, if S.isNil jtypes then next.2 else Function.update next.2 e (some jtypes))

/-- `set-binding-judgements-from-arg-judgements*` for one binding -/
def setBinding (b : X) (atypes : List Ty)
    (s : List (X × Option J) × JudgementTable X K J) :
    List (X × Option J) × JudgementTable X K J :=
  let ntypes := S.newTypes b atypes
  if ntypes.isEmpty then s
  else
    let entry := s.2 (.var b)
    (s.1 ++ [(b, entry)],
      Function.update s.2 (.var b) (some (S.appendTypes ntypes (entry.getD S.nil))))

def setComponents : List X → List (List Ty) →
    List (X × Option J) × JudgementTable X K J → List (X × Option J) × JudgementTable X K J
  | b :: bindings, atypes :: ajtypes, s => setComponents bindings ajtypes (S.setBinding b atypes s)
  | _, _, s => s

/-- The entries of the variables are put back; no entry becomes one without types. -/
def restore : List (X × Option J) → JudgementTable X K J → JudgementTable X K J
  | [], t => t
  | (x, entry) :: jbvars, t =>
    restore jbvars (Function.update t (.var x) (some (entry.getD S.nil)))

mutual

/-- `judgement-types*`, under the variables of `*judgement-bound-vars*` -/
def judgementTypes (boundVars : List X) : LExpr X K → JudgementTable X K J →
    J × JudgementTable X K J
  | .var x, t =>
    if x ∈ boundVars then S.around (.var x) t (S.nodeTypes (.var x) [], t) else (S.nil, t)
  | .node k args, t =>
    let (js, t₁) := judgementTypesList boundVars args t
    S.around (.node k args) t
      (if S.again (.node k args) js then
        let (ps, t₂) := judgementTypesPlusList boundVars args t₁
        (S.againTypes (.node k args) ps, t₂)
      else (S.nodeTypes (.node k args) js, t₁))
  | .tuple exprs, t =>
    let (js, t₁) := judgementTypesList boundVars exprs t
    S.around (.tuple exprs) t (S.tupleTypes (.tuple exprs) js, t₁)
  | .letApp bindings body arg, t =>
    let (jbvars, t₁) :=
      if bindings.length = (arg.arguments bindings).length then
        setArguments boundVars bindings (arg.arguments bindings) ([], t)
      else
        let (jtypes, t₁) := judgementTypesPlus boundVars arg t
        S.setComponents bindings (S.componentTypes jtypes) ([], t₁)
    let (ljtypes, t₂) :=
      judgementTypes (jbvars.map (·.1) ++ boundVars) body.operatorExpression t₁
    S.around (.letApp bindings body arg) t
      (S.letTypes (.letApp bindings body arg) bindings arg ljtypes, S.restore jbvars t₂)
termination_by e => 2 * sizeOf e
decreasing_by
  · rw [LExpr.node.sizeOf_spec]; omega
  · rw [LExpr.node.sizeOf_spec]; omega
  · rw [LExpr.tuple.sizeOf_spec]; omega
  · have h := LExpr.sizeOf_arguments_lt bindings body arg
    omega
  · rw [LExpr.letApp.sizeOf_spec]; omega
  · have h := LExpr.sizeOf_operatorExpression_le body
    rw [LExpr.letApp.sizeOf_spec]; omega

def judgementTypesList (boundVars : List X) : List (LExpr X K) → JudgementTable X K J →
    List J × JudgementTable X K J
  | [], t => ([], t)
  | e :: es, t =>
    let (j, t₁) := judgementTypes boundVars e t
    let (js, t₂) := judgementTypesList boundVars es t₁
    (j :: js, t₂)
termination_by es => 2 * sizeOf es

/-- `judgement-types+`, which keeps every answer. -/
def judgementTypesPlus (boundVars : List X) (e : LExpr X K) (t : JudgementTable X K J) :
    List Ty × JudgementTable X K J :=
  match e with
  | .tuple exprs => (S.typesPlus (.tuple exprs) S.nil, t)
  | e =>
    match t e with
    | some jtypes => (S.typesPlus e (S.removeTypes e jtypes), t)
    | none =>
      let (jtypes, t₁) := judgementTypes boundVars e t
      (S.typesPlus e jtypes, Function.update t₁ e (some jtypes))
termination_by 2 * sizeOf e + 1

def judgementTypesPlusList (boundVars : List X) : List (LExpr X K) → JudgementTable X K J →
    List (List Ty) × JudgementTable X K J
  | [], t => ([], t)
  | e :: es, t =>
    let (l, t₁) := judgementTypesPlus boundVars e t
    let (ls, t₂) := judgementTypesPlusList boundVars es t₁
    (l :: ls, t₂)
termination_by es => 2 * sizeOf es

/-- `set-binding-judgements-from-arg-judgements*`, with one argument for each binding -/
def setArguments (boundVars : List X) : List X → List (LExpr X K) →
    List (X × Option J) × JudgementTable X K J → List (X × Option J) × JudgementTable X K J
  | b :: bindings, arg :: args, s =>
    let (atypes, t) := judgementTypesPlus boundVars arg s.2
    setArguments boundVars bindings args (S.setBinding b atypes (s.1, t))
  | _, _, s => s
termination_by _ args => 2 * sizeOf args

end

end Table

end JudgementSyntax

end PVS.Judgements
