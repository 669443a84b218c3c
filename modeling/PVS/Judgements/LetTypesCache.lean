import Mathlib.Tactic.NormNum
import PVS.Judgements.LetTypesValid

/-! When the table of judgement types makes no difference. -/

namespace PVS.Judgements

namespace JudgementSemantics

variable {X K Ty J V : Type} [DecidableEq X] [DecidableEq (LExpr X K)]
  {S : JudgementSyntax X K Ty J} (M : JudgementSemantics S V)

/-- After each query its answer is that of an empty table, and every entry is valid for its key. -/
def Transparent (queries : List (LExpr X K)) : Prop :=
  ∀ asked, asked <+: queries →
    (S.run asked fun _ => none).1 =
        asked.map (fun e => (S.judgementTypes [] e fun _ => none).1) ∧
      ∀ e j, (S.run asked fun _ => none).2 e = some j →
        ∀ ρ, M.Env ρ → M.memAll j ρ (M.eval e ρ)

end JudgementSemantics

/-! `a: posnat`, `b: int` and `f(i: int): int`, with a judgement that `f` keeps positive numbers. -/

namespace PosJudgements

inductive Op where
  | a
  | b
  | f
  deriving DecidableEq

inductive NumType where
  | int
  | posint
  deriving DecidableEq

def nodeTypes : LExpr ℕ Op → List (List NumType) → List NumType
  | .node .a _, _ => [.posint]
  | .node .f _, [jtypes] => if .posint ∈ jtypes then [.posint] else []
  | _, _ => []

def judgements : JudgementSyntax ℕ Op NumType (List NumType) where
  bindingType _ := .int
  subtypeOf ty ty' := ty = ty' || ty' = .int
  nil := []
  isNil := List.isEmpty
  nodeTypes := nodeTypes
  again _ _ := false
  againTypes _ _ := []
  tupleTypes _ _ := []
  exprJudgementTypes _ j := j
  substJudgementTypes j _ _ := j
  removeTypes _ j := j.filter (· ≠ .int)
  typesPlus _ j := if j.isEmpty then [.int] else j
  componentTypes _ := []
  appendTypes l j := l ++ j
  isNil_iff _ := List.isEmpty_iff
  removeTypes_nil _ := rfl

inductive Val where
  | num (z : ℤ)
  | tuple (vs : List Val)

def Val.untuple : Val → List Val
  | .num _ => []
  | .tuple vs => vs

def mem : NumType → Val → Prop
  | .int, _ => True
  | .posint, .num z => 0 < z
  | .posint, .tuple _ => False

def evalOp : Op → List Val → Val
  | .a, _ => .num 1
  | .b, _ => .num (-1)
  | .f, vs => vs.headD (.num 0)

def values : ExprValues Op Val where
  evalNode := evalOp
  mkTuple := .tuple
  untuple := Val.untuple
  untuple_mkTuple _ := rfl

theorem nodeTypes_valid {k : Op} {args : List (LExpr ℕ Op)} {js : List (List NumType)}
    {ρ : ℕ → Val} (h : List.Forall₂ (fun a j => ∀ ty ∈ j, mem ty (values.eval a ρ)) args js) :
    ∀ ty ∈ nodeTypes (.node k args) js, mem ty (values.eval (.node k args) ρ) := by
  intro ty hty
  cases k with
  | a =>
    obtain rfl := List.mem_singleton.1 hty
    exact Int.one_pos
  | b => cases hty
  | f =>
    cases h with
    | nil => cases hty
    | cons hj h =>
      cases h with
      | nil =>
        rw [nodeTypes] at hty
        split at hty
        next hpos =>
          obtain rfl := List.mem_singleton.1 hty
          exact hj _ hpos
        next => cases hty
      | cons _ _ => cases hty

theorem mem_typesPlus {e : LExpr ℕ Op} {j : List NumType} {v : Val} (h : ∀ ty ∈ j, mem ty v) :
    ∀ ty ∈ judgements.typesPlus e j, mem ty v := by
  intro ty hty
  cases j with
  | nil =>
    obtain rfl := List.mem_singleton.1 hty
    trivial
  | cons t j => exact h ty hty

def semantics : JudgementSemantics judgements Val where
  toExprValues := values
  Env _ := True
  mem ty _ v := mem ty v
  memAll j _ v := ∀ ty ∈ j, mem ty v
  tyFreevars _ := []
  freevars _ := []
  mem_congr _ h := h
  memAll_congr _ h := h
  memAll_nil _ _ _ h := by cases h
  nodeTypes_valid _ h := nodeTypes_valid h
  againTypes_valid _ _ _ h := by cases h
  tupleTypes_valid _ _ _ h := by cases h
  exprJudgementTypes_valid _ h := h
  substJudgementTypes_valid h := h
  removeTypes_valid h ty hty := h ty (List.mem_filter.1 hty).1
  typesPlus_valid _ h := mem_typesPlus h
  Independent _ := True
  componentTypes_valid _ _ _ _ h := by cases h
  freevars_componentTypes _ _ h := by cases h
  appendTypes_valid hl hj := List.forall_mem_append.2 ⟨hl, hj⟩

/-- `LET x = e IN f(x)`, the lambda expression being the same for each `e`. -/
def letApp (e : LExpr ℕ Op) : LExpr ℕ Op := .letApp [0] (.node .f [.var 0]) e

theorem scoped_a : semantics.Scoped [] (fun _ => []) (.node .a []) :=
  .node _ _ _ _ (by simp)

theorem unchanged_a : judgements.Unchanged (semantics.Scoped [] fun _ => []) [] (fun _ => [])
    (.node .a []) :=
  .node _ _ _ _ (by simp) (by simp) scoped_a rfl

theorem readings_a : judgements.readings [] (fun _ => []) [0] (.node .a []) =
    [(fun _ => [], .node .a [])] := by
  simp [JudgementSyntax.readings, JudgementSyntax.argumentReadings, LExpr.arguments]

/-- `LET x = a IN x` -/
theorem unchanged_let : judgements.Unchanged (semantics.Scoped [] fun _ => []) [] (fun _ => [])
    (.letApp [0] (.var 0) (.node .a [])) := by
  refine .letApp _ _ _ _ _ (by decide) ?_ ?_ (.var _ _ 0) ?_ rfl
  · rw [readings_a, List.forall_mem_singleton]
    exact unchanged_a
  · rw [readings_a, List.forall_mem_singleton]
    show judgements.removeTypes _ (judgements.types [] (fun _ => []) (.node .a [])) =
      judgements.types [] (fun _ => []) (.node .a [])
    decide +kernel
  · refine .letApp _ _ _ _ _ (by decide) ?_ ?_ (fun _ _ _ _ _ _ h => by cases h)
      (fun _ _ _ => trivial) (fun _ _ => rfl) (fun _ _ _ h => by cases h) (fun _ _ => trivial)
      (.var _ _ 0) (fun _ h => by cases h)
    · rw [readings_a, List.forall_mem_singleton]
      exact scoped_a
    · rw [readings_a, List.forall_mem_singleton]

end PosJudgements

end PVS.Judgements
