import PVS.GroundProver.Canon
import PVS.GroundProver.Normineq

/-! `transclosure` of `arith.lisp`: an inequality is chained with the true ones of the opposite sense
on the use list of its left side. Of the interpreted terms `arithcan` has the arithmetic ones here,
and that `adduse` searches the use list of a factor of a product is left out. -/

namespace PVS.GroundProver

open Library SExp

/-! ### Numeric bounds -/

def qgreaterp : SExp → SExp → Bool
  | .int x, .int y => x > y
  | .int x, y => x * den y > num y
  | x, .int y => num x > y * den x
  | x, y => num x * den y > num y * den x

def qlesseqp (x y : SExp) : Bool := !qgreaterp x y

def qmin (qnum : SExp) (moreQnums : List SExp) : SExp :=
  moreQnums.foldl (fun min num => if qlessp num min then num else min) qnum

def qmax (qnum : SExp) (moreQnums : List SExp) : SExp :=
  moreQnums.foldl (fun max num => if qgreaterp num max then num else max) qnum

def isUpper (ineq : SExp) : Bool := ineq.funsym == .sym "lesseqp" || ineq.funsym == .sym "lessp"

def isLower (ineq : SExp) : Bool := ineq.funsym == .sym "greatereqp" || ineq.funsym == .sym "greaterp"

def numericUpperBounds (chainineqs : List SExp) : List SExp :=
  (chainineqs.filter fun ineq => qnumberp ineq.arg2 && isUpper ineq).map SExp.arg2

def numericLowerBounds (chainineqs : List SExp) : List SExp :=
  (chainineqs.filter fun ineq => qnumberp ineq.arg2 && isLower ineq).map SExp.arg2

def subsumedIneq (ineq : SExp) (upper lower : Option SExp) : Bool :=
  qnumberp ineq.arg2 &&
    match upper, isUpper ineq, lower, isLower ineq with
    | some upper, true, _, _ => qlessp upper ineq.arg2
    | _, _, some lower, true => qlessp ineq.arg2 lower
    | _, _, _, _ => false

def subsumedUpper (ineq1 ineq2 : SExp) : Bool :=
  ineq1.arg1 == ineq2.arg1 &&
    if ineq2.funsym = .sym "lesseqp" then
      qlessp ineq2.arg2 ineq1.arg2 ||
        (ineq1.funsym == .sym "lesseqp" && qlesseqp ineq2.arg2 ineq1.arg2)
    else ineq2.funsym == .sym "lessp" && qlesseqp ineq2.arg2 ineq1.arg2

def subsumedLower (ineq1 ineq2 : SExp) : Bool :=
  ineq1.arg1 == ineq2.arg1 &&
    if ineq2.funsym = .sym "greatereqp" then
      qlessp ineq1.arg2 ineq2.arg2 ||
        (ineq1.funsym == .sym "greatereqp" && qlesseqp ineq1.arg2 ineq2.arg2)
    else ineq2.funsym == .sym "greaterp" && qlesseqp ineq1.arg2 ineq2.arg2

def subsumedIneqList (ineq : SExp) (list : List SExp) : Bool :=
  if isUpper ineq then list.any fun atom => boundInequality atom && subsumedUpper ineq atom
  else list.any fun atom => boundInequality atom && subsumedLower ineq atom

/-! ### Chaining -/

def oppsensep (fnsym1 fnsym2 : SExp) : Bool :=
  if fnsym1 = .sym "lesseqp" ∨ fnsym1 = .sym "lessp" then
    fnsym2 == .sym "greatereqp" || fnsym2 == .sym "greaterp"
  else if fnsym1 = .sym "greaterp" ∨ fnsym1 = .sym "greatereqp" then
    fnsym2 == .sym "lesseqp" || fnsym2 == .sym "lessp"
  else false

def residue (ineq1 ineq2 : SExp) : SExp :=
  ofList [
    if ineq2.funsym = .sym "lessp" then .sym "greaterp"
    else if ineq2.funsym = .sym "greaterp" then .sym "lessp"
    else ineq1.funsym,
    ineq2.arg2, ineq1.arg2]

def squareList : List SExp → Bool
  | a :: b :: args => a == b && squareList args
  | args => args == []

def chainSquareIneq (ineq : SExp) : List SExp :=
  if isUpper ineq && isForm "TIMES" ineq.arg1 && squareList ineq.arg1.cdr.toList then
    [literal "greatereqp" ineq.arg1 (.int 0)]
  else []

def trueChainineqs (ineq : SExp) : List SExp → ProverM (List SExp)
  | [] => pure []
  | u :: us => do
    if oppsensep ineq.funsym u.funsym && ineq.arg1 == u.arg1 then
      let t ← prFind u
      let rest ← trueChainineqs ineq us
      pure (if t = tt then u :: rest else rest)
    else trueChainineqs ineq us

def bestupper (ineqs : List SExp) : Option SExp :=
  match numericUpperBounds ineqs with
  | [] => none
  | upper :: uppers => some (qmin upper uppers)

def bestlower (ineqs : List SExp) : Option SExp :=
  match numericLowerBounds ineqs with
  | [] => none
  | lower :: lowers => some (qmax lower lowers)

def okayIneqs (ineqs : List SExp) : List SExp :=
  ineqs.filter fun ineq => !subsumedIneq ineq (bestupper ineqs) (bestlower ineqs)

/-- The inequalities that `chainineqs` filters. -/
def chainCandidates (ineq : SExp) : ProverM (List SExp) := do
  let us ← trueChainineqs ineq (use (← get) ineq.arg1)
  pure (chainSquareIneq ineq ++ us)

def chainineqs (ineq : SExp) : ProverM (List SExp) := do
  let ineqs ← chainCandidates ineq
  pure (okayIneqs ineqs)

/-! ### Equations from bounds -/

/-- A bound of an inequality replaces the lower one or the upper one of the pair. -/
def setBound (typealist : List (SExp × SExp)) (ineq : SExp) (b : SExp × SExp) : SExp × SExp :=
  let strict := fun x : ℤ =>
    if prtype typealist ineq.arg2 = .sym "integer" then sigplus (plus [.int x, ineq.arg2]) else ineq.arg2
  if ineq.funsym = .sym "lessp" then (b.1, strict (-1))
  else if ineq.funsym = .sym "lesseqp" then (b.1, ineq.arg2)
  else if ineq.funsym = .sym "greaterp" then (strict 1, b.2)
  else if ineq.funsym = .sym "greatereqp" then (ineq.arg2, b.2)
  else b

/-- `i` is above `dif` from here on. -/
def loopEnd : SExp → ℕ
  | .int x => x.toNat + 1
  | x => (num x).toNat + 1

def makeEqualsFromBounds (var lb dif : SExp) : SExp :=
  if qzerop dif then equal var lb
  else
    form "or" (((List.range (loopEnd dif)).takeWhile fun i : ℕ => !qgreaterp (.int i) dif).map
      fun i : ℕ => equal var (sigplus (plus [.int i, lb])))

def addDisjunctOfEquals (typealist : List (SExp × SExp)) (jmrDist ineq1 ineq2 : SExp)
    (ineqpot : List SExp) : List SExp :=
  if prtype typealist ineq1.arg1 = .sym "integer" then
    let (lb, ub) := setBound typealist ineq2 (setBound typealist ineq1 (nil, nil))
    let dif := sigdifference (form "DIFFERENCE" [ub, lb])
    if qlesseqp dif jmrDist && prtype typealist lb == .sym "integer" then
      makeEqualsFromBounds ineq1.arg1 lb dif :: ineqpot
    else ineqpot
  else ineqpot

/-! ### `transclosure` -/

mutual

def subtermoflambda (subterm : SExp) : SExp → Bool
  | .cons f args =>
    if f = .sym "lambda" then subtermof subterm (.cons f args)
    else subtermoflambda subterm f || subtermoflambdaList subterm args
  | _ => false

def subtermoflambdaList (subterm : SExp) : SExp → Bool
  | .cons a args => subtermoflambda subterm a || subtermoflambdaList subterm args
  | _ => false

end

def badEqn (eqn : SExp) : Bool :=
  eqn == ident || (eqn.consp &&
    (subtermoflambda eqn.arg1 eqn.arg2 ||
      (!isForm "TIMES" eqn.arg1 && !onlyoccurrencep true eqn.arg1 eqn.arg1 (termsof eqn).tail)))

section

variable (cancelHead : SExp → List SExp)

def sigmaIneq (st : ProverState) (term : SExp) : SExp :=
  let result := normineq st cancelHead term
  if result = ident then tt else result

/-- The end of `arithcan`, where a new term is put on the use lists of its arguments. -/
def registerNew (newterm : SExp) (st : ProverState) : ProverState :=
  if newterm.consp && interp newterm then
    if (use st newterm.arg1).any fun u => newterm == sig st u then st else register newterm st
  else st

mutual

/-- `arithcan` with the inequalities and the use lists. -/
def arithcanUse : SExp → ProverM SExp
  | .cons f args =>
    if interp (.cons f args) then do
      let newargs ← arithcanUseArgs args
      let st ← get
      let term := .cons f (ofList newargs)
      let newterm := if isineq term then sigmaIneq cancelHead st term else sigmaArith term
      modify (registerNew newterm)
      pure newterm
    else prFind (.cons f args)
  | t => pure t

def arithcanUseArgs : SExp → ProverM (List SExp)
  | .cons a args => do
    let t ← arithcanUse a
    let ts ← arithcanUseArgs args
    pure (t :: ts)
  | _ => pure []

end

def normineqatom (st : ProverState) (ineq : SExp) : SExp :=
  if ineq.consp then
    let norm := normineq st cancelHead ineq
    if norm = ident then tt else norm
  else ineq

variable (jmrDist : SExp) (tcEhdmTest : Bool)

/-- The loop over the inequalities that chain with `ineq`. -/
def chainLoop (ineq : SExp) : List SExp → List SExp → ProverM (List SExp)
  | [], ineqpot => pure ineqpot
  | u :: us, ineqpot => do
    let bound ← arithcanUse cancelHead u.arg2
    let st ← get
    let chainineq := ofList [u.funsym, u.arg1, bound]
    let norm := normineq st cancelHead (residue ineq chainineq)
    if norm = tt then
      chainLoop ineq us (addDisjunctOfEquals st.typealist jmrDist ineq chainineq ineqpot)
    else if norm = ff then retfalse
    else if norm = ident then
      let newEqn :=
        if tcEhdmTest then equal ineq.arg1 ineq.arg2
        else normineq st cancelHead (equal ineq.arg1 ineq.arg2)
      let bad := if tcEhdmTest then subtermof ineq.arg1 ineq.arg2 else badEqn newEqn
      if !newEqn.consp || bad then chainLoop ineq us ineqpot
      else pure ((equalsolve st cancelHead newEqn).reverse ++ ineqpot)
    else chainLoop ineq us (norm :: ineqpot)

def transclosure (ineqstack : List SExp) (ineq : SExp) : ProverM (List SExp) :=
  if ineq ∈ ineqstack then pure []
  else do
    let can ← arithcanUse cancelHead ineq
    let nrmineq := normineqatom cancelHead (← get) can
    let unchanged := !nrmineq.consp || nrmineq == ineq
    if nrmineq = ff then retfalse
    else
      let chains ← chainineqs ineq
      let ineqpot ← chainLoop cancelHead jmrDist tcEhdmTest ineq chains
        (if unchanged then [] else [nrmineq])
      pure (if unchanged then equal nrmineq tt :: ineqpot else ineqpot)

end

end PVS.GroundProver
