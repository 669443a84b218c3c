import PVS.Library.DependentTerms

/-! The rules that instantiate and skolemize a quantified formula of a sequent -/

namespace PVS.Quantifiers

open Library.Dependent

variable {ν κ τ : Type}

section Bindings

variable {α : Type}

/-- The bindings with what they are replaced by, where `none` stands for the placeholder `_` -/
def subBoundvars : {k : Kind} → Node ν κ τ k → List (Option α) → List (ν × TypeExpr ν κ τ × α)
  | _, .cons x type rest, some term :: terms => (x, type, term) :: subBoundvars rest terms
  | _, .cons _ _ rest, none :: terms => subBoundvars rest terms
  | _, _, _ => []

def idBoundvars : {k : Kind} → Node ν κ τ k → List (Option α) → Bindings ν κ τ
  | _, .cons x type rest, none :: terms => .cons x type (idBoundvars rest terms)
  | _, .cons _ _ rest, some _ :: terms => idBoundvars rest terms
  | _, _, _ => .nil

end Bindings

variable [DecidableEq ν]

/-- The variables that are kept and occur in the types of those that are not -/
def overlap {α : Type} (sub : List (ν × TypeExpr ν κ τ × α)) (ids : Bindings ν κ τ) : List ν :=
  (sub.flatMap fun s => freevars s.2.1).filter (· ∈ bound ids)

abbrev Alist (ν κ τ : Type) := List (ν × Expr ν κ τ)

def Alist.toSubst (alist : Alist ν κ τ) : Subst ν κ τ := fun x => alist.lookup x

def newexpr (q : Quantifier) (ids : Bindings ν κ τ) (expression : Expr ν κ τ) : Expr ν κ τ :=
  if bound ids = [] then expression else .quant q ids expression

/-! ### Instantiation -/

/-- The type checker, which returns the typed term and the TCCs that it generates, the simplifier
for these under a sequent, and the equality of expressions -/
structure Checker (ν κ τ : Type) where
  typecheck : Expr ν κ τ → TypeExpr ν κ τ → Option (Expr ν κ τ × List (Expr ν κ τ))
  assertTccforms : List (Expr ν κ τ) → List (Expr ν κ τ) → List (Expr ν κ τ)
  exequal : Expr ν κ τ → Expr ν κ τ → Bool

variable (C : Checker ν κ τ)

def makeQuantAlist : List (ν × TypeExpr ν κ τ × Expr ν κ τ) → Alist ν κ τ →
    List (Expr ν κ τ) → Option (Alist ν κ τ × List (Expr ν κ τ))
  | [], alist, tccforms => some (alist.reverse, tccforms)
  | (x, type, term) :: rest, alist, tccforms =>
    match C.typecheck term (substit (Alist.toSubst alist) type) with
    | none => none
    | some (newterm, tccs) => makeQuantAlist rest ((x, newterm) :: alist) (tccforms ++ tccs)

/-- `quantifier-step`, which returns the expression where it refuses the terms -/
def quantifierStep (expr : Expr ν κ τ) (terms : List (Option (Expr ν κ τ))) :
    Expr ν κ τ × List (Expr ν κ τ) :=
  match expr with
  | .quant q bindings expression =>
    let sub := subBoundvars bindings terms
    let ids := idBoundvars bindings terms
    if overlap sub ids ≠ [] then (expr, [])
    else match makeQuantAlist C sub [] [] with
      | none => (expr, [])
      | some (qalist, tccforms) =>
        if (qalist.flatMap fun entry => freevars entry.2) ≠ [] then (expr, tccforms)
        else if bound ids ≠ [] ∧ (bound ids).length = (bound bindings).length then (expr, tccforms)
        else (substit qalist.toSubst (newexpr q ids expression), tccforms)
  | _ => (expr, [])

def negate : Expr ν κ τ → Expr ν κ τ
  | .negation argument => argument
  | formula => .negation formula

/-- The quantified expression of a formula of the sequent, and whether it is a consequent -/
def body : Expr ν κ τ → Bool × Expr ν κ τ
  | .negation argument => (false, argument)
  | formula => (true, formula)

def signed (sign : Bool) (formula : Expr ν κ τ) : Expr ν κ τ :=
  if sign then formula else negate formula

def instantiable (sign : Bool) : Expr ν κ τ → Option (Bindings ν κ τ)
  | .quant .exist bindings _ => if sign then some bindings else none
  | .quant .forAll bindings _ => if sign then none else some bindings
  | _ => none

/-- The bindings match as many terms. -/
def matchesLength {α : Type} (bindings : Option (Bindings ν κ τ)) (terms : List (Option α)) : Bool :=
  bindings.any fun bindings => (bound bindings).length = terms.length

def quantStepSform (terms : List (Option (Expr ν κ τ))) (copy : Bool) (sform : Expr ν κ τ)
    (tccforms : List (Expr ν κ τ)) : Bool × List (Expr ν κ τ) × List (Expr ν κ τ) :=
  let (sign, b) := body sform
  let (qbody, tccs) := if matchesLength (instantiable sign b) terms then quantifierStep C b terms
    else (b, [])
  if C.exequal qbody b then (false, [sform], tccforms ++ tccs)
  else (true, if copy then [sform, signed sign qbody] else [signed sign qbody], tccforms ++ tccs)

/-! ### Sequents -/

def isNegation : Expr ν κ τ → Bool
  | .negation _ => true
  | _ => false

/-- The formulas that a sequent is reduced by leaving out -/
def isTrivial : Expr ν κ τ → Bool
  | .truth b => !b
  | .negation (.truth b) => b
  | _ => false

def isFalse : Expr ν κ τ → Bool
  | .truth b => !b
  | _ => false

section Sequent

variable {σ : Type}

/-- Consequents are numbered upwards from `pos`, antecedents downwards from `neg`. -/
def sformReduce (simplifier : Expr ν κ τ → σ → Bool × List (Expr ν κ τ) × σ) (fnum : Int) :
    List (Expr ν κ τ) → Int → Int → σ → Bool × List (Expr ν κ τ) × σ
  | [], _, _, s => (false, [], s)
  | sform :: rest, pos, neg, s =>
    let sign := !isNegation sform
    let (signal, result, s) :=
      if (if sign then pos else neg) = fnum then simplifier sform s else (false, [sform], s)
    let (rsignal, rresult, s) := sformReduce simplifier fnum rest
      (if sign then pos + 1 else pos) (if sign then neg else neg - 1) s
    (signal || rsignal, result.filter (!isTrivial ·) ++ rresult, s)

/-- `delete-seq` -/
def deleteSeq (fnum : Int) : List (Expr ν κ τ) → Int → Int → List (Expr ν κ τ)
  | [], _, _ => []
  | sform :: rest, pos, neg =>
    let others := if isNegation sform then deleteSeq fnum rest pos (neg - 1)
      else deleteSeq fnum rest (pos + 1) neg
    if (if isNegation sform then neg else pos) = fnum then others else sform :: others

/-- `find-sform`: a formula of this number with the property -/
def findSform (pred : Expr ν κ τ → Bool) (fnum : Int) : List (Expr ν κ τ) → Int → Int → Bool
  | [], _, _ => false
  | sform :: rest, pos, neg =>
    if isNegation sform then
      (neg = fnum && pred sform) || findSform pred fnum rest pos (neg - 1)
    else (pos = fnum && pred sform) || findSform pred fnum rest (pos + 1) neg

end Sequent

/-- The subgoal and the TCC subgoals of `quant-step`, or no change -/
def quantStep (sforms : List (Expr ν κ τ)) (fnum : Int) (terms : List (Option (Expr ν κ τ)))
    (copy : Bool) : Option (List (Expr ν κ τ) × List (List (Expr ν κ τ))) :=
  if terms.isEmpty || !findSform (fun sform =>
      matchesLength (instantiable (body sform).1 (body sform).2) terms) fnum sforms 1 (-1) then none
  else
    let (signal, subgoal, tccs) :=
      sformReduce (quantStepSform C terms copy) fnum sforms 1 (-1) []
    let tccforms := C.assertTccforms sforms tccs
    if !signal || tccforms.any isFalse then none
    else some (subgoal, tccforms.map (· :: deleteSeq fnum sforms 1 (-1)))

end PVS.Quantifiers
