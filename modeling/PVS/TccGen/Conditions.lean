import PVS.TccGen.Substit

/-! TCC formulas: a conclusion under the conditions of its context. -/

namespace PVS.TccGen

variable {T : Terms}

/-- What is in `*tcc-conditions*`, innermost first. -/
inductive Condition (T : Terms)
  | binding (b : Binding T)
  | formula (f : Formula T)

def isEquation : Formula T → Bool
  | .atom a => T.equation a
  | _ => false

def getTccConditionBindings : List (Condition T) → (bindings : List (Binding T)) →
    List (Binding T) × List (Condition T)
  | .binding b :: conditions, bindings => getTccConditionBindings conditions (b :: bindings)
  | conditions, bindings => (bindings, conditions)

def collectLetEquations : List (Condition T) → (eqns : List (Formula T)) →
    (bindDecls : List (Binding T)) → List (Formula T) × List (Condition T)
  | .binding b :: conditions, eqns, bindDecls => collectLetEquations conditions eqns (b :: bindDecls)
  | .formula f :: conditions, eqns, bindDecls =>
    if isEquation f then collectLetEquations conditions (f :: eqns) bindDecls
    else (eqns, bindDecls.reverse.map .binding ++ .formula f :: conditions)
  | [], eqns, bindDecls => (eqns, bindDecls.reverse.map .binding)

/-- The names in a declaration, for `id-occurs-in`. -/
def declIds (d : Binding T) : List String := d.id :: T.tyIds d.type

/-- `make-new-variable` with a number; the loop ends before it has gone through all `ids`. -/
def makeNewVariable (base : String) (ids : List String) : (fuel num : ℕ) → String
  | 0, num => base ++ toString num
  | fuel + 1, num =>
    if base ++ toString num ∈ ids then makeNewVariable base ids fuel (num + 1)
    else base ++ toString num

section Conditions

variable (Q : Checker T)

/-- Whether the type of a binding mentions bindings that are renamed. -/
def dependsOn (type : T.Ty) (substs : Alist T) : Bool :=
  (T.tyFreevars type).any fun fv => (substs.assq fv.uid).isSome

/-- The type of the renamed binding. -/
def tccBindingType (type : T.Ty) (substs : Alist T) : T.Ty :=
  let ptype := (Q.raiseActuals type).getD type
  if dependsOn type substs then substitType Q ptype substs else ptype

/-- Whether a binding has to be named apart. -/
def isDuped (bd : Binding T) (bindings : List (Binding T)) (remConditions : List (Condition T))
    (substs : Alist T) : Bool :=
  remConditions.any (fun c => match c with
    | .binding b => b.id = bd.id
    | .formula _ => false) ||
  bindings.any (fun b => b.id = bd.id) || substs.any fun subst => subst.2.id = bd.id

/-- The name of the renamed binding. -/
def tccBindingId (bd : Binding T) (bindings : List (Binding T)) (remConditions : List (Condition T))
    (substs : Alist T) : String :=
  if isDuped bd bindings remConditions substs then
    let ids := Q.boundVariables.map Decl.id ++ (bindings.flatMap declIds ++
      substs.flatMap fun subst => declIds subst.1 ++ declIds subst.2)
    makeNewVariable bd.id ids ids.length 1
  else bd.id

/-- The substitutions, and the number of the next object. -/
def addTccBinding (bd : Binding T) (bindings : List (Binding T)) (remConditions : List (Condition T))
    (substs : Alist T) (next : ℕ) : Alist T × ℕ :=
  if bd.kind = .untypedBindDecl || (Q.raiseActuals bd.type).isSome || dependsOn bd.type substs ||
      isDuped bd bindings remConditions substs then
    let nbd : Binding T :=
      { uid := next
        id := tccBindingId Q bd bindings remConditions substs
        type := tccBindingType Q bd.type substs
        kind := .bindDecl }
    ((bd, nbd) :: substs, next + 1)
  else (substs, next)

def getTccClosureBindings (bindings : List (Binding T)) (body : Formula T) : List (Binding T) :=
  let fvars := fvUnion body.freevars (bindings.flatMap fun b => T.tyFreevars b.type)
  bindings.filter fun bd => memDecl bd fvars || Q.possiblyEmptyType bd.type

/-- The formula under `antes`. -/
def tccImplication (antes : List (Formula T)) (expr : Formula T) : Formula T :=
  if antes.isEmpty then expr else makeImplication Q (makeConjunctionStar Q antes) expr

/-- What `add-tcc-bindings` returns in the end, with the bindings innermost first. None where two of
them have one name, which is a break. -/
def tccForall (expr : Formula T) (substs : Alist T) (antes : List (Formula T))
    (bindings : List (Binding T)) : Option (Formula T) :=
  let nbody := substit Q false (tccImplication Q antes expr) substs
  let allBindings := bindings.reverse.map fun bd => (substs.assq bd.uid).getD bd
  let nbindings := getTccClosureBindings Q allBindings nbody
  if (nbindings.map Decl.id).Nodup then
    some (if nbindings.isEmpty then nbody else .forAll nbindings nbody)
  else none

def addTccBindings (expr : Formula T) : (cbindings : List (Binding T)) →
    (remConditions : List (Condition T)) → Alist T → (antes : List (Formula T)) →
      (bindings : List (Binding T)) → (next : ℕ) → Option (Formula T × Alist T × ℕ)
  | [], _, substs, antes, bindings, next =>
    (tccForall Q expr substs antes bindings).map fun nexpr => (nexpr, substs, next)
  | bd :: cbindings, remConditions, substs, antes, bindings, next =>
    let r := addTccBinding Q bd bindings remConditions substs next
    addTccBindings expr cbindings remConditions r.1 antes (bd :: bindings) r.2

theorem length_getTccConditionBindings (conditions : List (Condition T))
    (bindings : List (Binding T)) :
    (getTccConditionBindings conditions bindings).2.length ≤ conditions.length := by
  fun_induction getTccConditionBindings conditions bindings with
  | case1 b conditions bindings ih => exact Nat.le_succ_of_le ih
  | case2 => exact le_rfl

theorem length_collectLetEquations (conditions : List (Condition T)) (eqns : List (Formula T))
    (bindDecls : List (Binding T)) :
    (collectLetEquations conditions eqns bindDecls).2.length ≤
      conditions.length + bindDecls.length := by
  fun_induction collectLetEquations conditions eqns bindDecls with
  | case1 b conditions eqns bindDecls ih => simp only [List.length_cons] at ih ⊢; omega
  | case2 f conditions eqns bindDecls h ih => simp only [List.length_cons] at ih ⊢; omega
  | case3 f conditions eqns bindDecls h => simp; omega
  | case4 eqns bindDecls => simp

/-- `add-tcc-conditions*`, with the number of the next object. -/
def addTccConditionsStar (expr : Formula T) (conditions : List (Condition T)) (substs : Alist T)
    (antes : List (Formula T)) (next : ℕ) : Option (Formula T × ℕ) :=
  match conditions with
  | [] => some (substit Q false (tccImplication Q antes.reverse expr) substs, next)
  | .binding b :: conditions =>
    let r := getTccConditionBindings conditions [b]
    (addTccBindings Q expr r.1 r.2 substs antes [] next).bind fun s =>
      addTccConditionsStar s.1 r.2 s.2.1 [] s.2.2
  | .formula f :: conditions =>
    if isEquation f then
      let r := collectLetEquations conditions [f] []
      addTccConditionsStar expr r.2 substs (r.1 ++ antes) next
    else addTccConditionsStar expr conditions substs (f :: antes) next
  termination_by conditions.length
  decreasing_by
    · exact Nat.lt_succ_of_le (length_getTccConditionBindings _ _)
    · exact Nat.lt_succ_of_le (length_collectLetEquations _ _ _)
    · exact Nat.lt_succ_self _

end Conditions

end PVS.TccGen
