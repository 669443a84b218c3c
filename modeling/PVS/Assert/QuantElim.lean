import Mathlib.Tactic.Common
import PVS.Library.Telescope

/-! Equated variables of a quantifier are eliminated. -/

namespace PVS.Assert

open Library.Telescope

/-- The values after a simultaneous substitution. -/
def substEnv {X V T : Type} [DecidableEq X] (eval : T → (X → V) → V) (s : List (X × T))
    (ρ : X → V) : X → V :=
  fun x => match s.lookup x with
    | some t => eval t ρ
    | none => ρ x

/-- What is called on terms, types and formulas. Variables are the declared bindings. -/
structure QuantSyntax (X V T Ty F : Type) [DecidableEq X] where
  type : X → Ty
  variableOf : T → Option X
  freevars : T → List X
  tyFreevars : Ty → List X
  formFreevars : F → List X
  conjuncts : F → List F
  disjuncts : F → List F
  negation : F → Option F
  equality : F → Option (T × T)
  substit : T → List (X × T) → T
  tySubstit : Ty → List (X × T) → Ty
  formSubstit : F → List (X × T) → F
  /-- The formulas that are made when a term is typechecked with an expected type. -/
  tccs : T → Ty → List F
  makeConjunction : List F → F → F
  makeImplication : List F → F → F
  trueForm : F
  falseForm : F
  isTrue : F → Bool
  isFalse : F → Bool
  nonempty : Ty → Bool
  /-- `set-difference`, the order of which is not fixed -/
  setDifference : List (X × T) → (X × T → Bool) → List (X × T)
  eval : T → (X → V) → V
  mem : Ty → (X → V) → V → Prop
  holds : F → (X → V) → Prop
  eval_congr : ∀ {t ρ ρ'}, (∀ x ∈ freevars t, ρ x = ρ' x) → eval t ρ = eval t ρ'
  mem_congr : ∀ {t ρ ρ'}, (∀ x ∈ tyFreevars t, ρ x = ρ' x) → ∀ v, mem t ρ v ↔ mem t ρ' v
  holds_congr : ∀ {φ ρ ρ'}, (∀ x ∈ formFreevars φ, ρ x = ρ' x) → (holds φ ρ ↔ holds φ ρ')
  eval_variable : ∀ {t x}, variableOf t = some x → ∀ ρ, eval t ρ = ρ x
  holds_equality : ∀ {φ a b}, equality φ = some (a, b) → ∀ ρ, holds φ ρ ↔ eval a ρ = eval b ρ
  freevars_equality : ∀ {φ a b}, equality φ = some (a, b) →
    freevars a ⊆ formFreevars φ ∧ freevars b ⊆ formFreevars φ
  holds_conjuncts : ∀ φ ρ, holds φ ρ ↔ ∀ ψ ∈ conjuncts φ, holds ψ ρ
  freevars_conjuncts : ∀ {φ ψ}, ψ ∈ conjuncts φ → formFreevars ψ ⊆ formFreevars φ
  holds_disjuncts : ∀ φ ρ, holds φ ρ ↔ ∃ ψ ∈ disjuncts φ, holds ψ ρ
  freevars_disjuncts : ∀ {φ ψ}, ψ ∈ disjuncts φ → formFreevars ψ ⊆ formFreevars φ
  holds_negation : ∀ {φ ψ}, negation φ = some ψ → ∀ ρ, holds φ ρ ↔ ¬ holds ψ ρ
  freevars_negation : ∀ {φ ψ}, negation φ = some ψ → formFreevars ψ ⊆ formFreevars φ
  eval_substit : ∀ t s ρ, eval (substit t s) ρ = eval t (substEnv eval s ρ)
  freevars_substit : ∀ {t s x}, x ∈ freevars (substit t s) →
    (x ∈ freevars t ∧ s.lookup x = none) ∨ ∃ p ∈ s, x ∈ freevars p.2
  mem_tySubstit : ∀ t s ρ v, mem (tySubstit t s) ρ v ↔ mem t (substEnv eval s ρ) v
  freevars_tySubstit : ∀ {t s x}, x ∈ tyFreevars (tySubstit t s) →
    (x ∈ tyFreevars t ∧ s.lookup x = none) ∨ ∃ p ∈ s, x ∈ freevars p.2
  holds_formSubstit : ∀ φ s ρ, holds (formSubstit φ s) ρ ↔ holds φ (substEnv eval s ρ)
  freevars_formSubstit : ∀ {φ s x}, x ∈ formFreevars (formSubstit φ s) →
    (x ∈ formFreevars φ ∧ s.lookup x = none) ∨ ∃ p ∈ s, x ∈ freevars p.2
  holds_tccs : ∀ t ty ρ, (∀ x ∈ freevars t, mem (type x) ρ (ρ x)) →
    ((∀ φ ∈ tccs t ty, holds φ ρ) ↔ mem ty ρ (eval t ρ))
  freevars_tccs : ∀ {t ty φ x}, φ ∈ tccs t ty → x ∈ formFreevars φ →
    x ∈ freevars t ∨ x ∈ tyFreevars ty
  holds_makeConjunction : ∀ l φ ρ, holds (makeConjunction l φ) ρ ↔
    (∀ ψ ∈ l, holds ψ ρ) ∧ holds φ ρ
  freevars_makeConjunction : ∀ {l φ x}, x ∈ formFreevars (makeConjunction l φ) →
    (∃ ψ ∈ l, x ∈ formFreevars ψ) ∨ x ∈ formFreevars φ
  freevars_conjunct : ∀ {l φ ψ}, isFalse (makeConjunction l φ) = false → ψ ∈ l →
    formFreevars ψ ⊆ formFreevars (makeConjunction l φ)
  holds_makeImplication : ∀ l φ ρ, holds (makeImplication l φ) ρ ↔
    ((∀ ψ ∈ l, holds ψ ρ) → holds φ ρ)
  freevars_makeImplication : ∀ {l φ x}, x ∈ formFreevars (makeImplication l φ) →
    (∃ ψ ∈ l, x ∈ formFreevars ψ) ∨ x ∈ formFreevars φ
  freevars_hypothesis : ∀ {l φ ψ}, isTrue (makeImplication l φ) = false → ψ ∈ l →
    formFreevars ψ ⊆ formFreevars (makeImplication l φ)
  isTrue_trueForm : isTrue trueForm = true
  isFalse_falseForm : isFalse falseForm = true
  holds_of_isTrue : ∀ {φ}, isTrue φ = true → ∀ ρ, holds φ ρ
  freevars_of_isTrue : ∀ {φ}, isTrue φ = true → formFreevars φ = []
  not_holds_of_isFalse : ∀ {φ}, isFalse φ = true → ∀ ρ, ¬ holds φ ρ
  freevars_of_isFalse : ∀ {φ}, isFalse φ = true → formFreevars φ = []
  exists_mem_of_nonempty : ∀ {t}, nonempty t = true →
    ∀ ρ, (∀ x ∈ tyFreevars t, mem (type x) ρ (ρ x)) → ∃ v, mem t ρ v
  setDifference_perm : ∀ l keep, (setDifference l keep).Perm (l.filter fun p => !keep p)

namespace QuantSyntax

variable {X V T Ty F : Type} [DecidableEq X] (S : QuantSyntax X V T Ty F)

/-- `collect-subst-equalities` -/
def collectSubstEqualities (bindings : List X) : List F → List (X × T)
  | [] => []
  | atom :: conjuncts =>
    let rest := collectSubstEqualities bindings conjuncts
    match S.equality atom with
    | none => rest
    | some (args1, args2) =>
      match (S.variableOf args1).filter (· ∈ bindings) with
      | some bvar1 => (bvar1, args2) :: rest
      | none =>
        match (S.variableOf args2).filter (· ∈ bindings) with
        | some bvar2 => (bvar2, args1) :: rest
        | none => rest

/-- The test of `order-subst-equalities` -/
def ready (substs accum : List (X × T)) (pair : X × T) : Bool :=
  (!accum.any fun p => p.1 = pair.1) &&
    (S.freevars pair.2).all fun x => !substs.any fun p => p.1 = x

/-- `order-subst-equalities` -/
def orderSubstEqualities (substs accum : List (X × T)) : List (X × T) :=
  match _h : substs.find? (S.ready substs accum) with
  | some first => orderSubstEqualities (substs.eraseP (S.ready substs accum)) (first :: accum)
  | none => accum
termination_by substs.length
decreasing_by
  rw [List.length_eraseP_of_mem (List.mem_of_find?_eq_some _h) (List.find?_some _h)]
  exact Nat.sub_lt (List.length_pos_of_mem (List.mem_of_find?_eq_some _h)) Nat.one_pos

/-- `freevars` of a list of bindings -/
def bindingsFreevars : List X → List X
  | [] => []
  | b :: bs => (S.tyFreevars (S.type b) ++ bindingsFreevars bs).filter (· ≠ b)

theorem length_setDifference_lt {substs : List (X × T)} {keep : X × T → Bool}
    (h : ∃ pair ∈ substs, keep pair = true) :
    (S.setDifference substs keep).length < substs.length := by
  obtain ⟨pair, hmem, hkeep⟩ := h
  rw [(S.setDifference_perm _ _).length_eq]
  exact List.length_filter_lt_length_iff_exists.2 ⟨pair, hmem, by simpa using hkeep⟩

/-- `keep-bindings` -/
def keepBindings (substs : List (X × T)) (newBindings freevarsNewBindings : List X) : List X :=
  let keep : X × T → Bool := fun pair => pair.1 ∈ freevarsNewBindings
  let keeps := substs.filter keep
  let moreNewBindings := keeps.map (·.1)
  if _h : keeps.isEmpty then newBindings
  else keepBindings (S.setDifference substs keep) (moreNewBindings ++ newBindings)
    (S.bindingsFreevars moreNewBindings ++ freevarsNewBindings)
termination_by substs.length
decreasing_by
  have hkeeps : ∃ pair ∈ substs, keep pair = true := by simpa [keeps] using _h
  exact S.length_setDifference_lt hkeeps

/-- `self-apply-substitution` -/
def selfApplySubstitution (newBindings : List X) : List (X × T) → List (X × T)
  | [] => []
  | (var, term) :: substs =>
    let restSubst := selfApplySubstitution newBindings substs
    if var ∈ newBindings then restSubst else (var, S.substit term restSubst) :: restSubst

/-- The formulas that `tc-alist` makes. -/
def tcAlist : List (X × T) → List (X × T) → List F
  | [], _ => []
  | (var, term) :: inAlist, outAlist =>
    tcAlist inAlist ((var, term) :: outAlist) ++
      S.tccs term (S.tySubstit (S.type var) outAlist)

end QuantSyntax

inductive Quantifier where
  | exist
  | forAll
  deriving DecidableEq

/-- The expression that is returned. -/
inductive QuantResult (X F : Type) where
  | formula (φ : F)
  | quant (bindings : List X) (body : F)

namespace QuantSyntax

variable {X V T Ty F : Type} [DecidableEq X] (S : QuantSyntax X V T Ty F)

/-- The formulas among which the equations are looked for. -/
def equations : Quantifier → F → List F
  | .exist, body => S.conjuncts body
  | .forAll, body => (S.disjuncts body).filterMap S.negation

/-- The pairs that are eliminated, before those for which the bindings are kept are removed. -/
def orderedSubsts (q : Quantifier) (bindings : List X) (body : F) : List (X × T) :=
  S.orderSubstEqualities (S.collectSubstEqualities bindings (S.equations q body)) []

/-- The bindings without an equation -/
def staying (q : Quantifier) (bindings : List X) (body : F) : List X :=
  bindings.filter fun x => x ∉ (S.orderedSubsts q bindings body).map (·.1)

def newBindings (q : Quantifier) (bindings : List X) (body : F) : List X :=
  S.keepBindings (S.orderedSubsts q bindings body) (S.staying q bindings body)
    (S.bindingsFreevars (S.staying q bindings body))

def eliminated (q : Quantifier) (bindings : List X) (body : F) : List (X × T) :=
  S.selfApplySubstitution (S.newBindings q bindings body) (S.orderedSubsts q bindings body)

/-- The body after the substitution, with the formulas of the types. -/
def newBody (q : Quantifier) (bindings : List X) (body : F) : F :=
  let substs := S.eliminated q bindings body
  match q with
  | .exist => S.makeConjunction (S.tcAlist substs []) (S.formSubstit body substs)
  | .forAll => S.makeImplication (S.tcAlist substs []) (S.formSubstit body substs)

/-- `freevars` of a quantifier -/
def quantFreevars (bindings : List X) (body : F) : List X :=
  S.bindingsFreevars bindings ++ (S.formFreevars body).filter (· ∉ bindings)

def resultFreevars : QuantResult X F → List X
  | .formula φ => S.formFreevars φ
  | .quant bindings body => S.quantFreevars bindings body

/-- A constant body is not quantified. -/
def newExpr (q : Quantifier) (newBindings : List X) (newbody : F) : QuantResult X F :=
  let nonempty := newBindings.all fun b => S.nonempty (S.type b)
  if newBindings.isEmpty then .formula newbody
  else match q with
    | .exist =>
      if S.isFalse newbody then .formula S.falseForm
      else if S.isTrue newbody && nonempty then .formula S.trueForm
      else .quant newBindings newbody
    | .forAll =>
      if S.isTrue newbody then .formula S.trueForm
      else if S.isFalse newbody && nonempty then .formula S.falseForm
      else .quant newBindings newbody

/-- `assert-if-exists`. Without an equation nothing is eliminated. -/
def assertIfExists (bindings : List X) (newbody : F) : QuantResult X F :=
  if (S.eliminated .exist bindings newbody).isEmpty then .quant bindings newbody
  else S.newExpr .exist (S.newBindings .exist bindings newbody) (S.newBody .exist bindings newbody)

/-- `assert-if-forall`, which asserts that no new variable is free. -/
def assertIfForall (bindings : List X) (newbody : F) : Option (QuantResult X F) :=
  if (S.eliminated .forAll bindings newbody).isEmpty then some (.quant bindings newbody)
  else
    let newExpr := S.newExpr .forAll (S.newBindings .forAll bindings newbody)
      (S.newBody .forAll bindings newbody)
    if (S.resultFreevars newExpr).all (· ∈ S.quantFreevars bindings newbody) then some newExpr
    else none

def assertIfQuant : Quantifier → List X → F → Option (QuantResult X F)
  | .exist, bindings, newbody => some (S.assertIfExists bindings newbody)
  | .forAll, bindings, newbody => S.assertIfForall bindings newbody

end QuantSyntax

end PVS.Assert
