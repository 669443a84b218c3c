import PVS.Library.Telescope

/-! Splitting a lemma into the sides and the condition of a rewrite rule -/

namespace PVS.Prover.Rewrites

open Library.Telescope

inductive Kind
  | formula
  | term

/-- Expressions over binding declarations `X`, where `other` are all that are not split -/
inductive Expr (X : Type) (α : Kind → Type) : Kind → Type
  | other {k : Kind} (a : α k) : Expr X α k
  | truth (b : Bool) : Expr X α .formula
  | equation {k : Kind} (left right : Expr X α k) : Expr X α .formula
  | iff (left right : Expr X α .formula) : Expr X α .formula
  | implication (left right : Expr X α .formula) : Expr X α .formula
  | negation (argument : Expr X α .formula) : Expr X α .formula
  | conjunction (left right : Expr X α .formula) : Expr X α .formula
  | forAll (bindings : List X) (expression : Expr X α .formula) : Expr X α .formula

abbrev Formula (X : Type) (α : Kind → Type) := Expr X α .formula

/-- The free variables of other expressions and of the types of declarations, and the flag of
these types; no declaration occurs in its own type. -/
structure Declarations (X : Type) (α : Kind → Type) where
  freevars : ∀ {k}, α k → List X
  typeFreevars : X → List X
  nonempty : X → Bool
  not_self : ∀ x, x ∉ typeFreevars x

variable {X : Type} [DecidableEq X] {α : Kind → Type} (D : Declarations X α)

def freevarsList : List X → List X
  | [] => []
  | b :: bs => (D.typeFreevars b ∪ freevarsList bs).filter (· ≠ b)

def Expr.freevars : {k : Kind} → Expr X α k → List X
  | _, .other a => D.freevars a
  | _, .truth _ => []
  | _, .equation left right => left.freevars ∪ right.freevars
  | _, .iff left right => left.freevars ∪ right.freevars
  | _, .implication left right => left.freevars ∪ right.freevars
  | _, .negation argument => argument.freevars
  | _, .conjunction left right => left.freevars ∪ right.freevars
  | _, .forAll bindings expression =>
    freevarsList D bindings ∪ expression.freevars.filter (· ∉ bindings)

/-! ### The rule -/

structure Rule (X : Type) (α : Kind → Type) where
  kind : Kind
  lhs : Expr X α kind
  rhs : Expr X α kind
  hyp : Option (Formula X α)

def relevantBindingsStar (freevars : List X) : List X → List X → List X
  | [], rbindings => rbindings
  | b :: bindings, rbindings =>
    relevantBindingsStar freevars bindings
      (if ¬ D.nonempty b ∨ b ∈ freevars ∨ ∃ y ∈ rbindings, b ∈ D.typeFreevars y then
        b :: rbindings
      else rbindings)

def relevantBindings (bindings : List X) (expression : Formula X α) : List X :=
  relevantBindingsStar D (expression.freevars D) bindings.reverse []

/-- The rule that a formula is true -/
def Rule.whole (form : Formula X α) : Rule X α := ⟨.formula, form, .truth true, none⟩

def splitSides {k : Kind} (form : Formula X α) (vars : List X) (lhs rhs : Expr X α k) :
    Rule X α :=
  if rhs.freevars D ⊆ vars ++ lhs.freevars D then ⟨k, lhs, rhs, none⟩ else .whole form

/-- `split-rewrite*`, where `rl` is the direction from right to left -/
def splitRewriteStar (vars : List X) (rl : Bool) : Formula X α → Rule X α
  | .equation left right =>
    if rl then splitSides D (.equation left right) vars right left
    else splitSides D (.equation left right) vars left right
  | .iff left right =>
    if rl then splitSides D (.iff left right) vars right left
    else splitSides D (.iff left right) vars left right
  | .implication left right =>
    let rule := splitRewriteStar vars rl right
    { rule with
      hyp := some (match rule.hyp with
        | none => left
        | some hyp => .conjunction left hyp) }
  | .negation argument => ⟨.formula, argument, .truth false, none⟩
  | form => .whole form

def covered (form : Formula X α) (givenVars forallVars : List X) (rule : Rule X α) : Rule X α :=
  if forallVars ⊆ givenVars ++ rule.lhs.freevars D then rule else .whole form

def splitRewrite (givenVars : List X) (rl : Bool) : Formula X α → List X → Rule X α
  | .forAll bindings expression, forallVars =>
    covered D (.forAll bindings expression) givenVars
      (relevantBindings D bindings expression ++ forallVars)
      (splitRewrite givenVars rl expression (relevantBindings D bindings expression ++ forallVars))
  | form, forallVars => covered D form givenVars forallVars (splitRewriteStar D givenVars rl form)

/-! ### Meaning -/

abbrev Kind.Value (V : Type) : Kind → Type
  | .formula => Prop
  | .term => V

structure Interpretation (V : Type) where
  value : ∀ {k : Kind}, α k → (X → V) → k.Value V
  mem : X → (X → V) → V → Prop
  value_congr : ∀ {k : Kind} (a : α k) (ρ ρ' : X → V), (∀ x ∈ D.freevars a, ρ x = ρ' x) →
    value a ρ = value a ρ'
  mem_congr : ∀ b (ρ ρ' : X → V), (∀ x ∈ D.typeFreevars b, ρ x = ρ' x) →
    ∀ v, mem b ρ v ↔ mem b ρ' v
  /-- What `nonempty?` says of a type holds whatever its variables are. -/
  nonempty : ∀ b, D.nonempty b = true → ∀ ρ : X → V,
    (∀ x ∈ D.typeFreevars b, mem x ρ (ρ x)) → ∃ v, mem b ρ v

variable {D} {V : Type} (I : Interpretation D V)

def Expr.eval : {k : Kind} → Expr X α k → (X → V) → k.Value V
  | _, .other a, ρ => I.value a ρ
  | _, .truth b, _ => b = true
  | _, .equation left right, ρ => left.eval ρ = right.eval ρ
  | _, .iff left right, ρ => left.eval ρ ↔ right.eval ρ
  | _, .implication left right, ρ => left.eval ρ → right.eval ρ
  | _, .negation argument, ρ => ¬ argument.eval ρ
  | _, .conjunction left right, ρ => left.eval ρ ∧ right.eval ρ
  | _, .forAll bindings expression, ρ => forallAll I.mem bindings expression.eval ρ

def Rule.Holds (rule : Rule X α) (ρ : X → V) : Prop :=
  (∀ hyp ∈ rule.hyp, hyp.eval I ρ) → rule.lhs.eval I ρ = rule.rhs.eval I ρ

/-! ### The quantifiers of a formula -/

def allBindings : Formula X α → List X
  | .forAll bindings expression => bindings ++ allBindings expression
  | _ => []

variable (D)

/-- The bindings that are kept at every quantifier -/
def allRelevant : Formula X α → List X
  | .forAll bindings expression => relevantBindings D bindings expression ++ allRelevant expression
  | _ => []

/-- Every declaration is bound once, and occurs in the types of later ones only. -/
structure Scoped (form : Formula X α) : Prop where
  inOrder : InOrder D.typeFreevars (allBindings form)
  nodup : (allBindings form).Nodup
  outer : ∀ x ∈ form.freevars D, ∀ b ∈ allBindings form, b ∉ D.typeFreevars x

def Rule.Mentions (rule : Rule X α) (x : X) : Prop :=
  x ∈ rule.lhs.freevars D ∨ x ∈ rule.rhs.freevars D ∨ ∃ hyp ∈ rule.hyp, x ∈ hyp.freevars D

/-- A rule needs the variables of its parts, and those of the types of the bindings it needs. -/
inductive Rule.Needs (form : Formula X α) (rule : Rule X α) : X → Prop
  | mentions (x : X) (h : rule.Mentions D x) : Needs form rule x
  | type (x y : X) (hy : Needs form rule y) (hbound : y ∈ allBindings form)
    (h : x ∈ D.typeFreevars y) : Needs form rule x

end PVS.Prover.Rewrites
