import PVS.Prover.QuantifierInstance

/-! The instantiation steps for a substitution of the variables of nested quantifiers -/

namespace PVS.Quantifiers

open Library.Dependent

variable {ν κ τ : Type}

/-- A step `(instantiate fnum terms copy?)` -/
structure Instantiate (ν κ τ : Type) where
  fnum : Int
  terms : List (Option (Expr ν κ τ))
  copy : Bool

/-- What is taken of a list up to the first element with a property -/
def through {α : Type} (p : α → Bool) : List α → List α
  | [] => []
  | a :: l => if p a then [a] else a :: through p l

def makeQuantRule (fnum : Int) (newterms : List (List (Option (Expr ν κ τ)))) :
    List (Instantiate ν κ τ) :=
  (through (·.any Option.isNone) newterms).map fun qterms => ⟨fnum, qterms, false⟩

/-- In `make-copy-quant-rule` a placeholder is found only where its string and the one looked for
are one object, which is left to the compiler: `coalesced`. -/
def makeCopyQuantRule (coalesced : Bool) (fnum : Int)
    (newterms : List (List (Option (Expr ν κ τ)))) : List (Instantiate ν κ τ) :=
  match through (fun nt => coalesced && nt.any Option.isNone) newterms with
  | [] => [⟨fnum, [], true⟩]
  | qterms :: nterms =>
    ⟨fnum, qterms, true⟩ ::
      nterms.map fun qterms => ⟨if fnum < 0 then fnum - 1 else fnum + 1, qterms, false⟩

variable [DecidableEq ν]

/-- The terms for the variables of one quantifier -/
def levelTerms (subst : Alist ν κ τ) (bindings : Bindings ν κ τ) : List (Option (Expr ν κ τ)) :=
  (bound bindings).map (subst.lookup ·)

/-- `quant-subs*` -/
def quantSubs (q : Quantifier) (subst : Alist ν κ τ) : {k : Kind} → Node ν κ τ k →
    List (List (Option (Expr ν κ τ)))
  | _, .quant q' bindings expression =>
    if q' = q then levelTerms subst bindings :: quantSubs q subst expression else []
  | _, _ => []

variable (C : Checker ν κ τ)

def runStep (sforms : List (Expr ν κ τ)) (step : Instantiate ν κ τ) : List (Expr ν κ τ) :=
  match quantStep C sforms step.fnum step.terms step.copy with
  | none => sforms
  | some (subgoal, _) => subgoal

/-- The main subgoal after the steps -/
def runSteps (sforms : List (Expr ν κ τ)) (steps : List (Instantiate ν κ τ)) :
    List (Expr ν κ τ) :=
  steps.foldl (runStep C) sforms

/-! ### What the steps are for -/

/-- `quant-bndvars*` -/
def quantBndvars (q : Quantifier) : {k : Kind} → Node ν κ τ k → List ν
  | _, .quant q' bindings expression =>
    if q' = q then bound bindings ++ quantBndvars q expression else []
  | _, _ => []

/-- The variables with terms, in the levels up to the first one with a variable that has none -/
def instantiated (q : Quantifier) (subst : Alist ν κ τ) : {k : Kind} → Node ν κ τ k →
    List (ν × TypeExpr ν κ τ × Expr ν κ τ)
  | _, .quant q' bindings expression =>
    if q' = q then
      subBoundvars bindings (levelTerms subst bindings) ++
        if bound (idBoundvars bindings (levelTerms subst bindings)) = [] then
          instantiated q subst expression
        else []
    else []
  | _, _ => []

/-- The formula without the quantifiers over these variables -/
def remaining (q : Quantifier) (subst : Alist ν κ τ) : {k : Kind} → Node ν κ τ k → Node ν κ τ k
  | _, .quant q' bindings expression =>
    if q' = q then
      if bound (idBoundvars bindings (levelTerms subst bindings)) = [] then
        remaining q subst expression
      else .quant q (idBoundvars bindings (levelTerms subst bindings)) expression
    else .quant q' bindings expression
  | _, n => n

def restrict (subst : Alist ν κ τ) (xs : List ν) : Subst ν κ τ :=
  fun x => if x ∈ xs then subst.lookup x else none

/-- The instance of a formula -/
def instanceOf (q : Quantifier) (subst : Alist ν κ τ) (fmla : Expr ν κ τ) : Expr ν κ τ :=
  substit (restrict subst ((instantiated q subst fmla).map Prod.fst)) (remaining q subst fmla)

/-- At the first level with a variable that has no term, no type of one that has mentions it. -/
def NoOverlap (q : Quantifier) (subst : Alist ν κ τ) : {k : Kind} → Node ν κ τ k → Prop
  | _, .quant q' bindings expression =>
    q' = q →
      overlap (subBoundvars bindings (levelTerms subst bindings))
        (idBoundvars bindings (levelTerms subst bindings)) = [] ∧
      (bound (idBoundvars bindings (levelTerms subst bindings)) = [] → NoOverlap q subst expression)
  | _, _ => True

def BindingsNonempty (q : Quantifier) : {k : Kind} → Node ν κ τ k → Prop
  | _, .quant q' bindings expression => q' = q → bound bindings ≠ [] ∧ BindingsNonempty q expression
  | _, _ => True

/-- A formula of a sequent whose quantifiers bind a variable each at least, and none twice -/
structure WellFormed (q : Quantifier) (fmla : Expr ν κ τ) : Prop where
  closed : freevars fmla = []
  nodup : (quantBndvars q fmla).Nodup
  nonempty : BindingsNonempty q fmla

/-- The instantiations are not refused: the terms are closed, they are of the types of their
variables, no TCC is simplified to `FALSE`, and no type depends on a variable that is kept. -/
structure Applicable (q : Quantifier) (subst : Alist ν κ τ) (fmla : Expr ν κ τ) : Prop where
  closed : ∀ entry ∈ subst, freevars entry.2 = []
  accepted : ∀ s ∈ instantiated q subst fmla, ∃ tccs,
    C.typecheck s.2.2 (substit subst.toSubst s.2.1) = some (s.2.2, tccs)
  tccforms : ∀ sforms tccforms, (∀ tccf ∈ tccforms, ∃ s ∈ instantiated q subst fmla, ∃ tccs,
    C.typecheck s.2.2 (substit subst.toSubst s.2.1) = some (s.2.2, tccs) ∧ tccf ∈ tccs) →
    .truth false ∉ C.assertTccforms sforms tccforms
  noOverlap : NoOverlap q subst fmla

attribute [local simp] through runSteps quantSubs quantBndvars instantiated remaining NoOverlap
  BindingsNonempty

end PVS.Quantifiers
