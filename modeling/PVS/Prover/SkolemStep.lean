import PVS.Prover.QuantifierStep

/-! The rule that skolemizes a quantified formula of a sequent -/

namespace PVS.Quantifiers

open Library.Dependent

/-- What is declared under an identifier: a constant, a variable, or something else of this theory
or of another one -/
inductive Declaration (κ ι : Type)
  | constant (c : κ)
  | variable (id : ι)
  | other (id : ι) (current : Bool)

/-- The declarations of constants, with those that `makeskoconst` makes -/
structure Constants (ν κ τ ι : Type) where
  id : κ → ι
  current : κ → Bool
  type : κ → TypeExpr ν κ τ
  compatible : TypeExpr ν κ τ → TypeExpr ν κ τ → Bool
  skolemConst : ι → TypeExpr ν κ τ → κ
  id_skolemConst : ∀ i t, id (skolemConst i t) = i
  current_skolemConst : ∀ i t, current (skolemConst i t) = true
  type_skolemConst : ∀ i t, type (skolemConst i t) = t

/-- A term that is given for a variable: a name, or any other expression -/
inductive SkolemTerm (ι : Type)
  | name (id : ι)
  | other

def SkolemTerm.id? {ι : Type} : SkolemTerm ι → Option ι
  | .name id => some id
  | .other => none

variable {ν κ τ ι : Type} [DecidableEq ν] [DecidableEq ι] (T : Constants ν κ τ ι)

def declared (id : ι) (context : List (Declaration κ ι)) : Bool :=
  context.any fun
    | .constant c => T.id c = id && T.current c
    | .variable _ => false
    | .other id' current => id' = id && current

/-- No constant of this name has a type that is compatible. -/
def noneCompatible (id : ι) (type : TypeExpr ν κ τ) (context : List (Declaration κ ι)) : Bool :=
  context.all fun
    | .constant c => T.id c ≠ id || !T.compatible (T.type c) type
    | _ => true

/-- The terms that are no new names -/
def checkSkolem (sub : List (ν × TypeExpr ν κ τ × SkolemTerm ι)) (context : List (Declaration κ ι)) :
    List (SkolemTerm ι) :=
  (sub.filter fun (_, type, term) => match term with
    | .other => true
    | .name id => declared T id context || !noneCompatible T id type context).map (·.2.2)

def duplicates (sub : List (ν × TypeExpr ν κ τ × SkolemTerm ι)) : Bool :=
  !decide (sub.filterMap (·.2.2.id?)).Nodup

def constantAlist (alist : List (ν × κ)) : Alist ν κ τ := alist.map fun a => (a.1, .constant a.2)

def makeSkolemAlist : List (ν × TypeExpr ν κ τ × SkolemTerm ι) → List (Declaration κ ι) →
    List (ν × κ) → List (ν × κ) × List (Declaration κ ι)
  | (x, type, .name id) :: rest, context, alist =>
    let c := T.skolemConst id (substit (constantAlist alist).toSubst type)
    makeSkolemAlist rest (.constant c :: context) ((x, c) :: alist)
  | _, context, alist => (alist.reverse, context)

/-- `skolemize-step`, with the constants it makes and the context that declares them -/
def skolemizeStep (expr : Expr ν κ τ) (terms : List (Option (SkolemTerm ι)))
    (context : List (Declaration κ ι)) : Expr ν κ τ × List (ν × κ) × List (Declaration κ ι) :=
  match expr with
  | .quant q bindings expression =>
    let sub := subBoundvars bindings terms
    let ids := idBoundvars bindings terms
    if (checkSkolem T sub context).length ≠ 0 then (expr, [], context)
    else if duplicates sub then (expr, [], context)
    else if overlap sub ids ≠ [] then (expr, [], context)
    else if bound ids ≠ [] ∧ (bound ids).length = (bound bindings).length then (expr, [], context)
    else
      let (alist, context) := makeSkolemAlist T sub context []
      (substit (constantAlist alist).toSubst (newexpr q ids expression), alist, context)
  | _ => (expr, [], context)

def skolemizable (sign : Bool) : Expr ν κ τ → Option (Bindings ν κ τ)
  | .quant .forAll bindings _ => if sign then some bindings else none
  | .quant .exist bindings _ => if sign then none else some bindings
  | _ => none

/-- The constraints of the types of constants, the predicates of these types, and what the decision
procedure makes of a constraint: its next state, and whether it is refuted -/
structure TypeFacts (κ δ ν τ : Type) where
  typeConstraints : κ → List (Expr ν κ τ)
  typepreds : κ → List (Expr ν κ τ)
  assertTypepred : δ → Expr ν κ τ → δ × Bool

variable {δ : Type} (exequal : Expr ν κ τ → Expr ν κ τ → Bool) (U : TypeFacts κ δ ν τ)

/-- `skolem-step-assert-typepred` for some of the constraints -/
def refuted : List (Expr ν κ τ) → δ → Bool
  | [], _ => false
  | fmla :: rest, state =>
    let (state, false?) := U.assertTypepred state fmla
    false? || refuted rest state

def skolemStepSform (terms : List (Option (SkolemTerm ι))) (sform : Expr ν κ τ)
    (made : List (ν × κ) × List (Declaration κ ι)) :
    Bool × List (Expr ν κ τ) × List (ν × κ) × List (Declaration κ ι) :=
  let (sign, b) := body sform
  let (skobody, constants, context) :=
    if matchesLength (skolemizable sign b) terms then skolemizeStep T b terms made.2
    else (b, made)
  if exequal skobody b then (false, [sform], made)
  else (true, [signed sign skobody], constants, context)

inductive SkolemResult (ν κ τ ι : Type)
  | unchanged
  | closed
  | subgoal (sforms : List (Expr ν κ τ)) (constants : List (ν × κ))
    (context : List (Declaration κ ι))

def skolemStep (state : δ) (context : List (Declaration κ ι)) (sforms : List (Expr ν κ τ))
    (fnum : Int) (terms : List (Option (SkolemTerm ι))) (skolemTypepreds : Bool) :
    SkolemResult ν κ τ ι :=
  if !findSform (fun sform => matchesLength (skolemizable (body sform).1 (body sform).2) terms)
      fnum sforms 1 (-1) then .unchanged
  else
    let (signal, subgoal, constants, context) :=
      sformReduce (skolemStepSform T exequal terms) fnum sforms 1 (-1) ([], context)
    if !signal then .unchanged
    else if refuted U (constants.flatMap fun a => U.typeConstraints a.2) state then .closed
    else
      let preds := if skolemTypepreds then constants.flatMap fun a => U.typepreds a.2 else []
      .subgoal (preds.map negate ++ subgoal) constants context

end PVS.Quantifiers
