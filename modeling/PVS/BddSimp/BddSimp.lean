import PVS.Library.Bdd

/-! Propositional simplification of a sequent with decision diagrams. -/

namespace PVS.BddSimp

open PVS.Library

/-! ### Formulas -/

/-- The expressions below the propositional level. An argument is an expression whose type is a
datatype or a cotuple type, with `size` constructors or components. -/
structure Terms where
  Arg : Type
  Name : Type
  Atom : Type
  size : Arg → ℕ
  recognizer : Name → Name
  application : Atom → Bool

/-- Boolean expressions. An `equation` is one with a unit constructor on its left or on its right,
and an `injection` is an `injection?-application`. -/
inductive Expr (T : Terms)
  | true
  | false
  | not (e : Expr T)
  | and (e₁ e₂ : Expr T)
  | or (e₁ e₂ : Expr T)
  | implies (e₁ e₂ : Expr T)
  | iff (e₁ e₂ : Expr T)
  | disequation (e₁ e₂ : Expr T)
  | branch (condition thenPart elsePart : Expr T)
  | recognizer (op : T.Name) (arg : T.Arg) (con : Fin (T.size arg))
  | equation (unit : T.Name) (left : Bool) (arg : T.Arg) (con : Fin (T.size arg))
  | injection (arg : T.Arg) (index : Fin (T.size arg))
  | atom (a : T.Atom)

variable {T : Terms}

/-- `tc-eq` and `pvs-sxhash`. -/
structure TcEq (T : Terms) where
  expr : Expr T → Expr T → Bool
  arg : T.Arg → T.Arg → Bool
  sxhash : Expr T → ℕ
  expr_refl : ∀ e, expr e e = true
  expr_symm : ∀ e₁ e₂, expr e₁ e₂ = true → expr e₂ e₁ = true
  expr_trans : ∀ e₁ e₂ e₃, expr e₁ e₂ = true → expr e₂ e₃ = true → expr e₁ e₃ = true
  arg_refl : ∀ a, arg a a = true
  arg_symm : ∀ a₁ a₂, arg a₁ a₂ = true → arg a₂ a₁ = true
  arg_trans : ∀ a₁ a₂ a₃, arg a₁ a₂ = true → arg a₂ a₃ = true → arg a₁ a₃ = true
  size_eq : ∀ a₁ a₂, arg a₁ a₂ = true → T.size a₁ = T.size a₂

structure SForm (T : Terms) where
  /-- What it is `eq` to; none if it is new. -/
  id : Option ℕ
  formula : Expr T

/-! ### From formulas to diagrams -/

/-- `*pvs-bdd-hash*`, `*bdd-pvs-hash*`, `*bdd-counter*` and `*recognizer-forms-alist*`, whose forms
are here an argument with the variables. -/
structure BddState (T : Terms) where
  pvsBdd : List (Expr T × ℕ)
  bddPvs : List (ℕ × Expr T)
  counter : ℕ
  recognizerForms : List (T.Arg × List ℕ)

def recognizerApplication? : Expr T → Option (Expr T)
  | .recognizer op arg con => some (.recognizer op arg con)
  | .equation unit _ arg con => some (.recognizer (T.recognizer unit) arg con)
  | .injection arg index => some (.injection arg index)
  | _ => none

/-- The argument of what `recognizer-application?` returns. -/
def recognizerArg : Expr T → Option T.Arg
  | .recognizer _ arg _ => some arg
  | .equation _ _ arg _ => some arg
  | .injection arg _ => some arg
  | _ => none

section Translate

variable (Q : TcEq T) (P : BddPackage)

/-- Whether the two are one key of a hash table. -/
def sameKey (e₁ e₂ : Expr T) : Bool := Q.sxhash e₁ = Q.sxhash e₂ && Q.expr e₁ e₂

/-- `assoc` with `pushnew` on the entry that is found. -/
def enterForm (arg : T.Arg) (name : ℕ) : List (T.Arg × List ℕ) → Option (List (T.Arg × List ℕ))
  | [] => none
  | entry :: alist =>
    if Q.arg arg entry.1 then
      some ((entry.1, if name ∈ entry.2 then entry.2 else name :: entry.2) :: alist)
    else (enterForm arg name alist).map (entry :: ·)

def enterIntoRecognizerFormAlist (expr : Expr T) (name : ℕ) (s : BddState T) : BddState T :=
  match recognizerArg expr with
  | none => s
  | some arg =>
    { s with recognizerForms :=
      (enterForm Q arg name s.recognizerForms).getD ((arg, [name]) :: s.recognizerForms) }

def makeBddVar (expr : Expr T) (s : BddState T) : Bdd × BddState T :=
  let expr := (recognizerApplication? expr).getD expr
  match s.pvsBdd.find? fun entry => sameKey Q entry.1 expr with
  | none =>
    let varid := s.counter + 1
    (P.var varid, enterIntoRecognizerFormAlist Q expr varid { s with
      pvsBdd := s.pvsBdd ++ [(expr, varid)], bddPvs := s.bddPvs ++ [(varid, expr)], counter := varid })
  | some entry => (P.var entry.2, enterIntoRecognizerFormAlist Q expr entry.2 s)

/-- `translate-to-bdd*` on what is no application. -/
def translateExpr (expr : Expr T) (s : BddState T) : Bdd × BddState T :=
  if Q.expr expr .true then (.one, s)
  else if Q.expr expr .false then (.zero, s)
  else makeBddVar Q P expr s

def translateToBdd : Expr T → BddState T → Bdd × BddState T
  | .or e₁ e₂, s =>
    let r₁ := translateToBdd e₁ s
    let r₂ := translateToBdd e₂ r₁.2
    (P.or r₁.1 r₂.1, r₂.2)
  | .implies e₁ e₂, s =>
    let r₁ := translateToBdd e₁ s
    let r₂ := translateToBdd e₂ r₁.2
    (P.implies r₁.1 r₂.1, r₂.2)
  | .and e₁ e₂, s =>
    let r₁ := translateToBdd e₁ s
    let r₂ := translateToBdd e₂ r₁.2
    (P.and r₁.1 r₂.1, r₂.2)
  | .iff e₁ e₂, s =>
    let r₁ := translateToBdd e₁ s
    let r₂ := translateToBdd e₂ r₁.2
    (P.equiv r₁.1 r₂.1, r₂.2)
  | .disequation e₁ e₂, s =>
    let r₁ := translateToBdd e₁ s
    let r₂ := translateToBdd e₂ r₁.2
    (P.not (P.equiv r₁.1 r₂.1), r₂.2)
  | .not e, s =>
    let r := translateToBdd e s
    (P.not r.1, r.2)
  | .branch e₁ e₂ e₃, s =>
    let r₁ := translateToBdd e₁ s
    let r₂ := translateToBdd e₂ r₁.2
    let r₃ := translateToBdd e₃ r₂.2
    (P.ite r₁.1 r₂.1 r₃.1, r₃.2)
  | .recognizer op arg con, s => makeBddVar Q P (.recognizer op arg con) s
  | .equation unit left arg con, s => makeBddVar Q P (.equation unit left arg con) s
  | .atom a, s =>
    if T.application a then makeBddVar Q P (.atom a) s else translateExpr Q P (.atom a) s
  | expr, s => translateExpr Q P expr s

/-! ### Axioms on recognizers -/

def bddOrStar (bddList : List Bdd) : Bdd :=
  match bddList with
  | [] => .zero
  | bdd :: bddList => bddList.foldl P.or bdd

def andMaybe (bdd? : Option Bdd) (bdd : Bdd) : Option Bdd :=
  some (match bdd? with
    | some bdd' => P.and bdd' bdd
    | none => bdd)

def makeEnumExclusiveBdd : List Bdd → Option Bdd → Option Bdd
  | first :: second :: enumList, bdd? =>
    makeEnumExclusiveBdd (second :: enumList)
      (andMaybe P bdd? (P.or (P.not first) (P.not (bddOrStar P (second :: enumList)))))
  | _, bdd? => bdd?

def makeEnumInclusiveBdd (form : T.Arg × List ℕ) : Option Bdd :=
  if T.size form.1 = form.2.length then some (bddOrStar P (form.2.map P.var)) else none

def addEnumBdds (bdd : Bdd) : List (T.Arg × List ℕ) → (enumBdds : Option Bdd) → Bdd
  | [], none => bdd
  | [], some enumBdds => P.constrain bdd enumBdds
  | form :: alist, enumBdds =>
    let exclBdd := makeEnumExclusiveBdd P (form.2.map P.var) none
    let enumBdd := match exclBdd, makeEnumInclusiveBdd P form with
      | some excl, some incl => some (P.and excl incl)
      | some excl, none => some excl
      | none, incl => incl
    addEnumBdds bdd alist (match enumBdd with
      | some enum => andMaybe P enumBdds enum
      | none => enumBdds)

def makeSformsBdd : List (SForm T) → Option Bdd → BddState T → Option (Bdd × BddState T)
  | [], none, _ => none
  | [], some bdd, s => some (addEnumBdds P bdd s.recognizerForms none, s)
  | sform :: sforms, bdd?, s =>
    let r := translateToBdd Q P sform.formula s
    makeSformsBdd sforms (andMaybe P bdd? (P.not r.1)) r.2

end Translate

/-! ### From cubes to formulas -/

/-- A conjunct: `*true*`, a variable, or a list of one variable, which is a negation. -/
inductive Literal
  | true
  | pos (varid : ℕ)
  | neg (varid : ℕ)
  deriving DecidableEq

def translateBddCubeStar : Bdd → List Literal → List Literal
  | .node varid pos neg, result =>
    if neg = .zero then translateBddCubeStar pos (.pos varid :: result)
    else if pos = .zero then translateBddCubeStar neg (.neg varid :: result)
    else translateBddCubeStar pos (.pos varid :: result)
  | _, result => result.reverse

def translateBddCube : Bdd → List Literal
  | .node varid pos neg => translateBddCubeStar (.node varid pos neg) []
  | _ => [.true]

def replaceNegLitsWithPosLit (negLits : List ℕ) : List Literal → Option ℕ → List Literal
  | [], _ => []
  | .neg n :: conjuncts, posLit =>
    if n ∈ negLits then (posLit.map Literal.pos).toList ++ replaceNegLitsWithPosLit negLits conjuncts none
    else .neg n :: replaceNegLitsWithPosLit negLits conjuncts posLit
  | lit :: conjuncts, posLit => lit :: replaceNegLitsWithPosLit negLits conjuncts posLit

def negLit (recLits : List ℕ) : Literal → Option ℕ
  | .neg n => if n ∈ recLits then some n else none
  | _ => none

/-- The variables among `recLits` that are negated. -/
def negLits (recLits : List ℕ) (conjuncts : List Literal) : List ℕ :=
  conjuncts.filterMap (negLit recLits)

/-- One round of `simplify-rec-conjuncts*`. -/
def simplifyRecForm (form : T.Arg × List ℕ) (conjuncts : List Literal) : List Literal :=
  if form.2.any fun x => .pos x ∈ conjuncts then
    conjuncts.filter fun lit => ! form.2.any fun x => lit = .neg x
  else
    let negs := negLits form.2 conjuncts
    if negs.length = T.size form.1 - 1 then
      match form.2.find? fun x => x ∉ negs with
      | some posLit => replaceNegLitsWithPosLit negs conjuncts (some posLit)
      | none => conjuncts
    else conjuncts

def simplifyRecConjunctsStar (forms : List (T.Arg × List ℕ)) (conjuncts : List Literal) :
    List Literal :=
  forms.foldl (fun conjuncts form => simplifyRecForm form conjuncts) conjuncts

section Subgoals

variable (Q : TcEq T)

/-- `make-negation`; `tccsNone` is whether `*generate-tccs*` is `none`. -/
def makeNegation (tccsNone : Bool) (e : Expr T) : Expr T :=
  if tccsNone then
    if Q.expr e .true then .false else if Q.expr e .false then .true else .not e
  else .not e

/-- The formula of a conjunct; none if its variable is not in the table. -/
def literalFormula (tccsNone : Bool) (bddPvs : List (ℕ × Expr T)) : Literal → Option (Expr T)
  | .true => some (makeNegation Q tccsNone .true)
  | .pos n => (bddPvs.lookup n).map (makeNegation Q tccsNone)
  | .neg n => bddPvs.lookup n

def fromBddListToPvsList (tccsNone : Bool) (s : BddState T) (conjuncts : List (List Literal)) :
    Option (List (List (Expr T))) :=
  (conjuncts.map (simplifyRecConjunctsStar s.recognizerForms)).mapM fun conj =>
    conj.mapM (literalFormula Q tccsNone s.bddPvs)

def createBddSubgoal (sforms remaining : List (SForm T)) (conjunct : List (Expr T)) :
    List (SForm T) :=
  conjunct.map (fun fmla =>
    (sforms.find? fun sform => Q.expr fmla sform.formula).getD ⟨none, fmla⟩) ++ remaining

/-- What the rule returns: `X`, or subgoals. -/
inductive Result (T : Terms)
  | unchanged
  | subgoals (goals : List (List (SForm T)))

/-- `subsetp` -/
def subsetSforms (goal sforms : List (SForm T)) : Bool :=
  goal.all fun sform => sforms.any fun sform' => sform.id.isSome && sform.id = sform'.id

def addBddSubgoals (sforms : List (SForm T)) (conjuncts : List (List (Expr T)))
    (remaining : List (SForm T)) : Result T :=
  match conjuncts.map (createBddSubgoal Q sforms remaining) with
  | [goal] =>
    if subsetSforms goal sforms && subsetSforms sforms goal then .unchanged else .subgoals [goal]
  | goals => .subgoals goals

def bddsimpConjuncts (P : BddPackage) (tccsNone irredundant : Bool) (selected : List (SForm T)) :
    Option (List (List (Expr T))) := do
  let (bdd, s) ← makeSformsBdd Q P selected none ⟨[], [], 0, []⟩
  fromBddListToPvsList Q tccsNone s ((P.sumOfCubes bdd irredundant).map translateBddCube)

/-- `run-bddsimp`, where `select` tells which formulas the numbers stand for; none is an error. -/
def runBddsimp (P : BddPackage) (tccsNone irredundant : Bool) (sforms : List (SForm T))
    (select : SForm T → Bool) : Option (Result T) :=
  let selected := sforms.filter select
  if selected.isEmpty then some .unchanged
  else do
    let conjuncts ← bddsimpConjuncts Q P tccsNone irredundant selected
    some (addBddSubgoals Q sforms conjuncts (sforms.filter fun sform => !select sform))

end Subgoals

end PVS.BddSimp
