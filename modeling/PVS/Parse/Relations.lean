import Mathlib.Data.List.Basic

/-! The parser's chains of relations. -/

namespace PVS.Parse

/-! ### Operators -/

/-- `*pvs-relational-operators*`, where `<| |>` is read as one symbol -/
def pvsRelationalOperators : List String :=
  ["=", "/=", "<", "<=", ">", ">=", "==", "<<", ">>", "< >",
    "≁", "∼", "≃", "≅", "≇", "≈", "≉", "≍", "≎", "≏", "≐", "≗", "≙", "≡", "⋈", "≤", "≥", "≦", "≧",
    "≨", "≩", "≪", "≫", "≮", "≯", "≰", "≱", "≺", "≻", "◁", "▷",
    "⊂", "⊃", "⊄", "⊅", "⊆", "⊇", "⊊", "⊋", "⊏", "⊐", "⊑", "⊒"]

def pvsEqualityOperators : List String := ["=", "/=", "≠"]

/-- `*infix-operators*` -/
def infixOperators : List String :=
  ["O", "∘", "IFF", "<=>", "⇔", "IMPLIES", "=>", "⇒", "WHEN", "OR", "∨", "\\/", "AND", "/\\", "∧",
    "&", "XOR", "ANDTHEN", "ORELSE",
    "^", "+", "-", "*", "/", "++", "~", "**", "//", "^^", "|-", "⊢", "|=", "⊨", "<|", "|>", "=",
    "/=", "≠", "==", "<", "<=", ">", ">=",
    "<<", ">>", "<<=", ">>=", "#", "@@", "##", "∘", "∨", "∧", "⊕", "⊘", "⊗", "⊖", "⊙", "⊛", "⨁",
    "⨂", "⨀",
    "⊢", "⊨", "±", "∓", "∔", "×", "÷", "⊞", "⊟", "⊠", "≁", "∼", "≃", "≅", "≇", "≈", "≉", "≍", "≎",
    "≏", "≐", "≗", "≙", "≡", "⋈", "≤", "≥", "≦", "≧",
    "≨", "≩", "≪", "≫", "≮", "≯", "≰", "≱", "≺", "≻", "◁", "▷", "∈", "∉", "∋", "∩", "∪", "⊂", "⊃",
    "⊄", "⊅", "⊆", "⊇", "⊎", "⊊", "⊋",
    "⊏", "⊐", "⊓", "⊔", "⋀", "⋁", "⋂", "⋃", "•", "←", "↑", "→", "↓", "↝", "↦", "⇐", "⇒", "⇑", "⇓",
    "⇔", "∇", "⊣", "⊥", "⊩", "◯", "★", "✠", "√"]

abbrev Relational (op : String) : Prop := op ∈ pvsRelationalOperators

abbrev Equality (op : String) : Prop := op ∈ pvsEqualityOperators

/-! ### Expressions -/

/-- Expressions, with the number of their parentheses: names stand for all that is no application
of an infix operator. -/
inductive Expr
  | name (id : String) (parens : ℕ)
  | infixApplication (operator : String) (args1 args2 : Expr) (parens : ℕ)
  | application (operator : String) (args1 args2 : Expr) (parens : ℕ)
  | chainedRelation (args1 args2 : Expr) (parens : ℕ)
  deriving DecidableEq

/-- The slot of an application, which a name does not have -/
def Expr.operator : Expr → Option String
  | .name .. => none
  | .infixApplication op .. => some op
  | .application op .. => some op
  | .chainedRelation .. => some "AND"

def Expr.incParens : Expr → Expr
  | .name id parens => .name id (parens + 1)
  | .infixApplication op args1 args2 parens => .infixApplication op args1 args2 (parens + 1)
  | .application op args1 args2 parens => .application op args1 args2 (parens + 1)
  | .chainedRelation args1 args2 parens => .chainedRelation args1 args2 (parens + 1)

def mkApplication (op : String) (args1 args2 : Expr) : Expr :=
  if op ∈ infixOperators then .infixApplication op args1 args2 0
  else .application op args1 args2 0

def mkChainedRelation (lhs rhs : Expr) : Expr := .chainedRelation lhs rhs 0

/-- `(memq (operator arg) *pvs-equality-operators*)`: the expression is looked for, not its id. -/
def OperatorIsEquality (_operator : String) : Prop := False

instance (operator : String) : Decidable (OperatorIsEquality operator) :=
  inferInstanceAs (Decidable False)

/-- The test of the methods for an operator and the one of their argument -/
def MayChain (op operator : String) : Prop :=
  (¬ Equality op ∧ ¬ OperatorIsEquality operator) ∨ op = operator

instance (op operator : String) : Decidable (MayChain op operator) :=
  inferInstanceAs (Decidable (_ ∨ _))

/-- `rightmost-relation-term`, where `some none` is the argument itself and `none` an error -/
def rightmostRelationTerm (op : String) : Expr → Option (Option Expr)
  | .infixApplication operator _ args2 parens =>
    if parens = 0 ∧ Relational operator ∧ MayChain op operator then some (some args2)
    else some none
  | .chainedRelation _ args2 _ =>
    args2.operator.bind fun operator =>
      if MayChain op operator then
        (rightmostRelationTerm op args2).map fun term => some (term.getD args2)
      else some none
  | _ => some none

def leftmostRelationTerm (op : String) : Expr → Option (Option Expr)
  | .infixApplication operator args1 _ parens =>
    if parens = 0 ∧ Relational operator ∧ MayChain op operator then some (some args1)
    else some none
  | .chainedRelation args1 args2 _ =>
    args2.operator.bind fun operator =>
      if MayChain op operator then
        (leftmostRelationTerm op args1).map fun term => some (term.getD args1)
      else some none
  | _ => some none

/-- `xt-term-expr` on the two expressions of its arguments -/
def xtTermExpr (op : String) (left right : Expr) : Option Expr :=
  if Relational op then do
    let lhs ← rightmostRelationTerm op left
    let rhs ← leftmostRelationTerm op right
    let app := mkApplication op (lhs.getD left) (rhs.getD right)
    match lhs, rhs with
    | none, none => some app
    | none, some rhs => some (mkChainedRelation app rhs)
    | some _, none => some (mkChainedRelation left app)
    | some _, some _ => some (mkChainedRelation (mkChainedRelation left app) right)
  else some (.infixApplication op left right 0)

/-- The syntax trees of the grammar -/
inductive Term
  | atom (id : String)
  | parens (t : Term)
  | app (op : String) (left right : Term)
  deriving DecidableEq

def xtExpr : Term → Option Expr
  | .atom id => some (.name id 0)
  | .parens t => (xtExpr t).map Expr.incParens
  | .app op left right => do
    let left ← xtExpr left
    let right ← xtExpr right
    xtTermExpr op left right

/-! ### Chains -/

/-- Two operators that may be in one chain: neither is an equality, or they are the same. -/
def Chainable (op op' : String) : Prop := (¬ Equality op ∧ ¬ Equality op') ∨ op = op'

instance (op op' : String) : Decidable (Chainable op op') := inferInstanceAs (Decidable (_ ∨ _))

/-- The operand is a relation without parentheses that the operator goes on with. -/
def Joins (op : String) : Term → Prop
  | .app op' _ _ => Relational op' ∧ Chainable op op'
  | _ => False

instance (op : String) (t : Term) : Decidable (Joins op t) := by
  cases t <;> unfold Joins <;> infer_instance

/-- The last operand of a chain, or the term itself -/
def Term.last : Term → Term
  | .app op left right =>
    if Relational op then if Joins op right then right.last else right else .app op left right
  | t => t

def Term.first : Term → Term
  | .app op left right =>
    if Relational op then if Joins op left then left.first else left else .app op left right
  | t => t

/-- The operand that stands next to an operator -/
def leftOperand (op : String) (t : Term) : Term := if Joins op t then t.last else t

def rightOperand (op : String) (t : Term) : Term := if Joins op t then t.first else t

/-! ### Meaning -/

/-- Values of the names, the relations and the other operators -/
structure Interpretation (V : Type) where
  name : String → V
  relation : String → V → V → Bool
  apply : String → V → V → V
  ofBool : Bool → V
  truth : V → Bool
  truth_ofBool : ∀ b, truth (ofBool b) = b

variable {V : Type}

def Expr.eval (I : Interpretation V) : Expr → V
  | .name id _ => I.name id
  | .infixApplication op args1 args2 _ | .application op args1 args2 _ =>
    if Relational op then I.ofBool (I.relation op (args1.eval I) (args2.eval I))
    else I.apply op (args1.eval I) (args2.eval I)
  | .chainedRelation args1 args2 _ => I.ofBool (I.truth (args1.eval I) && I.truth (args2.eval I))

/-- The value of a term, and of the first and the last operand of its chain -/
structure Meaning (V : Type) where
  value : V
  first : V
  last : V

/-- A chain means that all its adjacent relations hold. -/
def Term.meaning (I : Interpretation V) : Term → Meaning V
  | .atom id => ⟨I.name id, I.name id, I.name id⟩
  | .parens t => let m := t.meaning I; ⟨m.value, m.value, m.value⟩
  | .app op left right =>
    let l := left.meaning I
    let r := right.meaning I
    if Relational op then
      let relation := I.relation op (if Joins op left then l.last else l.value)
        (if Joins op right then r.first else r.value)
      { value := I.ofBool
          ((if Joins op left then I.truth l.value else true) && relation &&
            (if Joins op right then I.truth r.value else true))
        first := if Joins op left then l.first else l.value
        last := if Joins op right then r.last else r.value }
    else
      let value := I.apply op l.value r.value
      ⟨value, value, value⟩

/-! ### The grammar -/

/-- How tightly the operators bind, of those that may be relations -/
def level (op : String) : ℕ :=
  if op ∈ ["=", "/=", "≠", "=="] then 0
  else if op ∈ ["<", "<=", ">", ">=", "<<", ">>", "<<=", ">>=", "<|", "|>"] then 1
  else 2

/-- An operand without parentheses binds as tightly as the operator on its left, and more tightly
on its right. -/
def Term.Nested : Term → Prop
  | .atom _ => True
  | .parens t => t.Nested
  | .app op left right =>
    left.Nested ∧ right.Nested ∧
      (∀ op' l r, left = .app op' l r → level op ≤ level op') ∧
        ∀ op' l r, right = .app op' l r → level op < level op'

/-! ### When chains are put together -/

def conjoin (joinsLeft joinsRight : Prop) [Decidable joinsLeft] [Decidable joinsRight]
    (left right app : Expr) : Expr :=
  let lower := if joinsLeft then mkChainedRelation left app else app
  if joinsRight then mkChainedRelation lower right else lower

/-- Every relation is put between the operands that stand next to it, and is conjoined with the
chains that it goes on with. -/
def Term.Assembled : Term → Prop
  | .atom _ => True
  | .parens t => t.Assembled
  | .app op left right =>
    left.Assembled ∧ right.Assembled ∧
      (Relational op → ∃ l r lhs rhs, xtExpr left = some l ∧ xtExpr right = some r ∧
        xtExpr (leftOperand op left) = some lhs ∧ xtExpr (rightOperand op right) = some rhs ∧
        xtExpr (.app op left right) =
          some (conjoin (Joins op left) (Joins op right) l r (mkApplication op lhs rhs)))

/-- The operator of the last relation of a chain -/
def Term.lastOperator : Term → String
  | .app op _ right => if Joins op right then right.lastOperator else op
  | _ => ""

def Term.firstOperator : Term → String
  | .app op left _ => if Joins op left then left.firstOperator else op
  | _ => ""

/-- A chain in parentheses, which the operator goes on with -/
def Intrudes (op : String) : Term → Prop
  | .atom _ => False
  | .parens t => Intrudes op t
  | .app op' left right => Relational op' ∧ (Joins op' left ∨ Joins op' right) ∧
      (¬ Equality op ∨ op = op')

/-- An operand is not taken for a part of the chain of an operator. -/
def Separate (op : String) : Term → Prop
  | .atom _ => True
  | .parens t => ¬ Intrudes op t
  | .app op' _ _ => Relational op' → Equality op' → Equality op

instance decidableIntrudes (op : String) : (t : Term) → Decidable (Intrudes op t)
  | .atom _ => inferInstanceAs (Decidable False)
  | .parens t => decidableIntrudes op t
  | .app .. => inferInstanceAs (Decidable (_ ∧ _ ∧ _))

instance (op : String) (t : Term) : Decidable (Separate op t) := by
  cases t <;> unfold Separate <;> infer_instance

/-- The operands of every relation are separate but for those that it goes on with, and these are
found; it goes on to the right only where it goes on with its left. -/
def Term.Good : Term → Prop
  | .atom _ => True
  | .parens t => t.Good
  | .app op left right =>
    left.Good ∧ right.Good ∧ (Relational op →
      Separate op left ∧ Separate op right ∧
        (Joins op left → left.lastOperator ∈ infixOperators) ∧
          (Joins op right → right.firstOperator ∈ infixOperators) ∧
            (Joins op right → Joins op left))

instance decidableGood : (t : Term) → Decidable t.Good
  | .atom _ => inferInstanceAs (Decidable True)
  | .parens t => decidableGood t
  | .app _ left right =>
    have := decidableGood left
    have := decidableGood right
    inferInstanceAs (Decidable (_ ∧ _ ∧ _))

end PVS.Parse
