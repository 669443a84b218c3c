import PVS.GroundProver.Arith
import PVS.GroundProver.Process

/-! `normineq` of `arith.lisp`: a literal is solved for a variable, and cut where the variable is an
integer. `*jmr-mult*` is on, so that every term counts as linear, and `*printerpmult*` is
`'experimental`. -/

namespace PVS.GroundProver

open SExp

abbrev ident : SExp := .sym "ident"

abbrev literal (op : String) (a b : SExp) : SExp := form op [a, b]

def qminusp : SExp → Bool
  | .int x => x < 0
  | x => num x < 0

def qdifference : SExp → SExp → SExp
  | .int x, .int y => .int (x - y)
  | .int x, y => qmake (x * den y - num y) (den y)
  | x, .int y => qmake (num x - y * den x) (den x)
  | x, y => qmake (den y * num x - den x * num y) (den x * den y)

def qfractpt : SExp → SExp
  | .int _ => .int 0
  | x => qmake ((num x).tmod (den x)) (den x)

/-! ### Cuts -/

section

variable (typealist : List (SExp × SExp))

mutual

/-- The fractional part of the term, where one can be determined. -/
def fractpt : SExp → Option SExp
  | .int _ => some (.int 0)
  | .sym n => if prtype typealist (.sym n) = .sym "integer" then some (.int 0) else none
  | .cons f args =>
    if prtype typealist (.cons f args) = .sym "integer" then some (.int 0)
    else if qnumberp (.cons f args) then some (qfractpt (.cons f args))
    else if f = .sym "PLUS" then plusfractpt args (.int 0)
    else if f = .sym "TIMES" then timesfractpt args
    else none

def plusfractpt : SExp → SExp → Option SExp
  | .cons arg args, sum =>
    match fractpt arg with
    | some frac => plusfractpt args (qplus frac sum)
    | none => none
  | _, sum => some (qfractpt sum)

def timesfractpt : SExp → Option SExp
  | .cons arg args =>
    match fractpt arg with
    | some frac => if qzerop frac then timesfractpt args else none
    | none => none
  | _ => some (.int 0)

end

def zerocut (ineq : SExp) : SExp :=
  if ineq.funsym = .sym "lessp" then
    literal "lesseqp" ineq.arg1 (sigplus (plus [.int (-1), ineq.arg2]))
  else if ineq.funsym = .sym "greaterp" then
    literal "greatereqp" ineq.arg1 (sigplus (plus [.int 1, ineq.arg2]))
  else ineq

def minuscut (ineq fract : SExp) : SExp :=
  if ineq.funsym = .sym "equal" then ff
  else if ineq.funsym = .sym "lessp" ∨ ineq.funsym = .sym "lesseqp" then
    literal "lesseqp" ineq.arg1 (sigplus (plus [qminus (qplus fract (.int 1)), ineq.arg2]))
  else literal "greatereqp" ineq.arg1 (sigdifference (form "DIFFERENCE" [ineq.arg2, fract]))

def poscut (ineq fract : SExp) : SExp :=
  if ineq.funsym = .sym "equal" then ff
  else if ineq.funsym = .sym "lessp" ∨ ineq.funsym = .sym "lesseqp" then
    literal "lesseqp" ineq.arg1 (sigplus (plus [qminus fract, ineq.arg2]))
  else literal "greatereqp" ineq.arg1 (sigplus (plus [qdifference (.int 1) fract, ineq.arg2]))

def integercut (lit : SExp) : SExp :=
  if lit.consp && prtype typealist lit.arg1 == .sym "integer" then
    match fractpt typealist lit.arg2 with
    | none => lit
    | some fract =>
      if qzerop fract then zerocut lit
      else if qminusp fract then minuscut lit fract
      else poscut lit fract
  else lit

end

/-! ### The solved form -/

def normconstdif (fnsymbol dif : SExp) : SExp :=
  if qzerop dif then
    if fnsymbol = .sym "equal" then tt
    else if fnsymbol = .sym "lesseqp" ∨ fnsymbol = .sym "greatereqp" then ident
    else ff
  else if qminusp dif then
    if fnsymbol = .sym "lessp" ∨ fnsymbol = .sym "lesseqp" then tt else ff
  else if fnsymbol = .sym "greaterp" ∨ fnsymbol = .sym "greatereqp" then tt
  else ff

def antifnsym (fnsym : SExp) : SExp :=
  if fnsym = .sym "lesseqp" then .sym "greatereqp"
  else if fnsym = .sym "greatereqp" then .sym "lesseqp"
  else if fnsym = .sym "lessp" then .sym "greaterp"
  else if fnsym = .sym "greaterp" then .sym "lessp"
  else fnsym

def varof (term : SExp) : SExp := if isForm "TIMES" term && qnumberp term.arg1 then term.arg2 else term

def coefof (term : SExp) : SExp :=
  if isForm "TIMES" term && qnumberp term.arg1 then term.arg1 else .int 1

mutual

def interpSubtermof (var : SExp) : SExp → Bool
  | .cons f args =>
    var == .cons f args || (interp (.cons f args) && interpSubtermofArgs var args)
  | term => term != nil && var == term

def interpSubtermofArgs (var : SExp) : SExp → Bool
  | .cons st args => interpSubtermof var st || interpSubtermofArgs var args
  | _ => false

end

def memberOrDivMember (var : SExp) (l : List SExp) : Bool :=
  l.any fun y => var == y || (isForm "DIVIDE" y && interpSubtermof var y.arg2)

/-- The flag `eq` is `funsymis=`. -/
def occursinOther (eq : Bool) (var term : SExp) : Bool :=
  if isForm "TIMES" term then var == term || memberOrDivMember var term.cdr.toList
  else if isForm "DIVIDE" term && eq then
    if qnumberp term.arg1 then interpSubtermof var term.arg2
    else interpSubtermof var term.arg1 || interpSubtermof var term.arg2
  else var == term

def occursin (eq : Bool) (var : SExp) : SExp → Bool
  | .cons f (.cons a (.cons b args)) =>
    if f = .sym "TIMES" ∧ qnumberp a then occursin eq var b
    else occursinOther eq var (.cons f (.cons a (.cons b args)))
  | .cons f (.cons a args) =>
    if f = .sym "TIMES" ∧ qnumberp a then var == nil else occursinOther eq var (.cons f (.cons a args))
  | term => occursinOther eq var term

def onlyoccurrencep (eq : Bool) (var term : SExp) (args : List SExp) : Bool :=
  args.all fun arg => !(arg != term && occursin eq var arg)

/-- The variable and its coefficient, for the specials `var` and `coef`. -/
def solvable (eq : Bool) (dif : SExp) : Option (SExp × SExp) :=
  if isForm "PLUS" dif then
    (dif.cdr.toList.find? fun term =>
      !qnumberp term && onlyoccurrencep eq (varof term) term dif.cdr.toList).map fun term =>
        (varof term, coefof term)
  else if isForm "TIMES" dif then some (varof dif, coefof dif)
  else some (dif, .int 1)

def solvedFor (fnsymbol dif : SExp) (p : SExp × SExp) : SExp :=
  ofList [if qminusp p.2 then antifnsym fnsymbol else fnsymbol, p.1,
    arithcan (times [qnorm (qquotient (.int (-1)) p.2),
      sigplus (plus [sigtimes (times [qtimes (.int (-1)) p.2, p.1]), dif])])]

def normineq2 (lit : SExp) : SExp :=
  let fnsymbol := lit.funsym
  let dif := sigdifference (form "DIFFERENCE" [lit.arg1, lit.arg2])
  if qnumberp dif then normconstdif fnsymbol dif
  else
    match solvable false dif with
    | some p => solvedFor fnsymbol dif p
    | none =>
      match solvable (fnsymbol == .sym "equal") dif with
      | some p => solvedFor fnsymbol dif p
      | none => lit

/-! ### Strictness -/

section

variable (st : ProverState)

/-- A disequality of the two sides is on the use list of the left one. -/
def isStrict (ineq : SExp) : Bool :=
  (use st ineq.arg1).any fun u =>
    u.consp && u.car.consp && ineq.arg1 == u.car.car && ineq.arg2 == u.car.cdr

/-- `make-strict`, with `check-strict?` as a parameter. -/
def makeStrict (checkStrict : SExp → Bool) (ineq : SExp) : SExp :=
  if ineq.funsym = .sym "equal" then if isStrict st ineq then ff else ineq
  else if ineq.funsym = .sym "lesseqp" then
    if isStrict st ineq || checkStrict ineq then literal "lessp" ineq.arg1 ineq.arg2 else ineq
  else if ineq.funsym = .sym "greatereqp" then
    if isStrict st ineq || checkStrict ineq then literal "greaterp" ineq.arg1 ineq.arg2 else ineq
  else ineq

def normineq1 (checkStrict : SExp → Bool) (ineq : SExp) : SExp :=
  let norm := normineq2 ineq
  if norm.consp then makeStrict st checkStrict norm else norm

def normineqWith (checkStrict : SExp → Bool) (lit : SExp) : SExp :=
  let ilit := integercut st.typealist lit
  let result := if ilit.consp then integercut st.typealist (normineq1 st checkStrict ilit) else ilit
  if result = ident ∧ lit ≠ ilit then tt else result

def termsof (lit : SExp) : List SExp :=
  lit.arg1 :: if isForm "PLUS" lit.arg2 then lit.arg2.cdr.toList else [lit.arg2]

/-- `equalsolve`. On an equation `make-strict` does not come to `check-strict?`. What is done about
a product or a quotient in front is the parameter `cancelHead`. -/
def equalsolve (cancelHead : SExp → List SExp) (lit : SExp) : List SExp :=
  let norm := normineqWith st (fun _ => false) lit
  if norm.consp then
    let head := norm.arg1
    if isForm "TIMES" head || isForm "DIVIDE" head then cancelHead norm
    else if onlyoccurrencep true head head (termsof norm).tail then [norm]
    else [literal "lesseqp" norm.arg1 norm.arg2, literal "greatereqp" norm.arg1 norm.arg2]
  else [norm]

def checkStrictRec : List SExp → Bool
  | [] => false
  | eqn :: eqns =>
    eqn == ff || (eqn.consp && eqn.funsym == .sym "equal" && isStrict st eqn) || checkStrictRec eqns

def checkStrict (cancelHead : SExp → List SExp) (ineq : SExp) : Bool :=
  checkStrictRec st (equalsolve st cancelHead (equal ineq.arg1 ineq.arg2))

def normineq (cancelHead : SExp → List SExp) (lit : SExp) : SExp :=
  normineqWith st (checkStrict st cancelHead) lit

end

/-! ### Equations -/

section

variable {st : ProverState} {a b : SExp}

theorem integercut_equal (typealist : List (SExp × SExp)) :
    integercut typealist (literal "equal" a b) = ff ∨
      integercut typealist (literal "equal" a b) = literal "equal" a b := by
  unfold integercut
  split
  · split
    · exact .inr rfl
    · split
      · exact .inr rfl
      · split
        · exact .inl rfl
        · exact .inl rfl
  · exact .inr rfl

theorem consp_normconstdif (fnsymbol dif : SExp) : (normconstdif fnsymbol dif).consp = false := by
  unfold normconstdif
  repeat' split
  all_goals rfl

theorem funsym_normineq2_equal (h : (normineq2 (literal "equal" a b)).consp = true) :
    (normineq2 (literal "equal" a b)).funsym = .sym "equal" := by
  have hsolved : ∀ dif p, (solvedFor (.sym "equal") dif p).funsym = .sym "equal" := by
    intro dif p
    have hanti : antifnsym (.sym "equal") = .sym "equal" := by decide
    rw [solvedFor, hanti, ite_self]
    rfl
  unfold normineq2 at h ⊢
  dsimp only at h ⊢
  split at h
  · rw [consp_normconstdif] at h
    cases h
  · rename_i hnum
    rw [if_neg hnum]
    split
    · exact hsolved _ _
    · split
      · exact hsolved _ _
      · rfl

/-- On an equation `check-strict?` is not called. -/
theorem normineqWith_equal (check check' : SExp → Bool) :
    normineqWith st check (literal "equal" a b) = normineqWith st check' (literal "equal" a b) := by
  have hone : normineq1 st check (literal "equal" a b) = normineq1 st check' (literal "equal" a b) := by
    unfold normineq1
    dsimp only
    split
    · rename_i h
      rw [makeStrict, makeStrict, if_pos (funsym_normineq2_equal h), if_pos (funsym_normineq2_equal h)]
    · rfl
  rcases integercut_equal st.typealist (a := a) (b := b) with e | e
  · rw [normineqWith, normineqWith, e]
    rfl
  · rw [normineqWith, normineqWith, e, hone]

end

end PVS.GroundProver
