import Mathlib

/-! The searches for a subterm that matches a template -/

namespace PVS.Prover.Matches

inductive Kind
  | expr
  | selection
  | assignment
  | list (k : Kind)

inductive Unary
  | negation
  | minus
  | other

/-- The operators of two arguments, where `less` stands for `<` and `<=` too -/
inductive Binary
  | implication
  | conjunction
  | disjunction
  | less
  | greater
  | plus
  | subMinus
  | other

/-- What the generic functions take: expressions at their places, selections, assignments and lists
of these. Names and numbers are atoms, and `component` are the applications of projections,
injections, extractions and fields. -/
inductive Node (β ι : Type) : Kind → Type
  | nil {k : Kind} : Node β ι (.list k)
  | cons {k : Kind} (car : Node β ι k) (cdr : Node β ι (.list k)) : Node β ι (.list k)
  | atom (place : ι) : Node β ι .expr
  | unary (place : ι) (kind : Unary) (operator argument : Node β ι .expr) : Node β ι .expr
  | binary (place : ι) (kind : Binary) (operator args1 args2 : Node β ι .expr) : Node β ι .expr
  | application (place : ι) (operator : Node β ι .expr) (arguments : Node β ι (.list .expr)) :
    Node β ι .expr
  | component (place : ι) (argument : Node β ι .expr) : Node β ι .expr
  | cases (place : ι) (expression : Node β ι .expr) (selections : Node β ι (.list .selection))
    (elsePart : Node β ι (.list .expr)) : Node β ι .expr
  | selection (args : List β) (expression : Node β ι .expr) : Node β ι .selection
  | binding (place : ι) (bindings : List β) (expression : Node β ι .expr) : Node β ι .expr
  | record (place : ι) (expressions : Node β ι (.list .expr)) : Node β ι .expr
  | tuple (place : ι) (exprs : Node β ι (.list .expr)) : Node β ι .expr
  | update (place : ι) (expression : Node β ι .expr) (assignments : Node β ι (.list .assignment)) :
    Node β ι .expr
  | assignment (arguments : Node β ι (.list (.list .expr))) (expression : Node β ι .expr) :
    Node β ι .assignment
  | other (place : ι) : Node β ι .expr

abbrev Expr (β ι : Type) := Node β ι .expr

variable {β ι σ : Type} (callMatch : List β → Expr β ι → Option σ)

def someFindMatch (try1 try2 : Option σ) : Option σ :=
  match try1 with
  | none => try2
  | some insub => some insub

def findOutMatch (out : Bool) (bound : List β) (e : Expr β ι) (insub : Option σ) : Option σ :=
  match insub with
  | none => callMatch bound e
  | some insub => if out then someFindMatch (callMatch bound e) (some insub) else some insub

/-- `find-match` under the bound variables -/
def findMatch (out : Bool) : {k : Kind} → List β → Node β ι k → Option σ
  | _, _, .nil => none
  | _, bound, .cons car cdr => someFindMatch (findMatch out bound car) (findMatch out bound cdr)
  | _, bound, .atom place => callMatch bound (.atom place)
  | _, bound, .unary place kind operator argument =>
    findOutMatch callMatch out bound (.unary place kind operator argument)
      (someFindMatch (findMatch out bound operator) (findMatch out bound argument))
  | _, bound, .binary place kind operator args1 args2 =>
    findOutMatch callMatch out bound (.binary place kind operator args1 args2)
      (someFindMatch (findMatch out bound operator)
        (someFindMatch (findMatch out bound args1) (findMatch out bound args2)))
  | _, bound, .application place operator arguments =>
    findOutMatch callMatch out bound (.application place operator arguments)
      (someFindMatch (findMatch out bound operator) (findMatch out bound arguments))
  | _, bound, .component place argument =>
    findOutMatch callMatch out bound (.component place argument) (findMatch out bound argument)
  | _, bound, .cases place expression selections elsePart =>
    findOutMatch callMatch out bound (.cases place expression selections elsePart)
      (someFindMatch (findMatch out bound expression) (findMatch out bound selections))
  | _, bound, .selection args expression => findMatch out (args ++ bound) expression
  | _, bound, .binding place bindings expression =>
    findOutMatch callMatch out bound (.binding place bindings expression)
      (findMatch out (bindings ++ bound) expression)
  | _, bound, .record place expressions =>
    findOutMatch callMatch out bound (.record place expressions) (findMatch out bound expressions)
  | _, bound, .tuple place exprs =>
    findOutMatch callMatch out bound (.tuple place exprs) (findMatch out bound exprs)
  | _, bound, .update place expression assignments =>
    findOutMatch callMatch out bound (.update place expression assignments)
      (someFindMatch (findMatch out bound expression) (findMatch out bound assignments))
  | _, bound, .assignment arguments expression =>
    someFindMatch (findMatch out bound arguments) (findMatch out bound expression)
  | _, _, .other _ => none

def findOutAllMatches (bound : List β) (e : Expr β ι) (accum : List σ) : List σ :=
  match callMatch bound e with
  | none => accum
  | some sub => sub :: accum

/-- `find-all-matches`, which takes the expressions of the assignments only -/
def findAllMatches : {k : Kind} → List β → Node β ι k → List σ → List σ
  | _, _, .nil, accum => accum
  | _, bound, .cons car cdr, accum => findAllMatches bound car (findAllMatches bound cdr accum)
  | _, bound, .atom place, accum => findOutAllMatches callMatch bound (.atom place) accum
  | _, bound, .unary place kind operator argument, accum =>
    findOutAllMatches callMatch bound (.unary place kind operator argument)
      (findAllMatches bound operator (findAllMatches bound argument accum))
  | _, bound, .binary place kind operator args1 args2, accum =>
    findOutAllMatches callMatch bound (.binary place kind operator args1 args2)
      (findAllMatches bound operator
        (findAllMatches bound args1 (findAllMatches bound args2 accum)))
  | _, bound, .application place operator arguments, accum =>
    findOutAllMatches callMatch bound (.application place operator arguments)
      (findAllMatches bound operator (findAllMatches bound arguments accum))
  | _, bound, .component place argument, accum =>
    findOutAllMatches callMatch bound (.component place argument)
      (findAllMatches bound argument accum)
  | _, bound, .cases place expression selections elsePart, accum =>
    findOutAllMatches callMatch bound (.cases place expression selections elsePart)
      (findAllMatches bound expression (findAllMatches bound selections accum))
  | _, bound, .selection args expression, accum => findAllMatches (args ++ bound) expression accum
  | _, bound, .binding place bindings expression, accum =>
    findOutAllMatches callMatch bound (.binding place bindings expression)
      (findAllMatches (bindings ++ bound) expression accum)
  | _, bound, .record place expressions, accum =>
    findOutAllMatches callMatch bound (.record place expressions)
      (findAllMatches bound expressions accum)
  | _, bound, .tuple place exprs, accum =>
    findOutAllMatches callMatch bound (.tuple place exprs) (findAllMatches bound exprs accum)
  | _, bound, .update place expression assignments, accum =>
    findOutAllMatches callMatch bound (.update place expression assignments)
      (findAllMatches bound expression (findAllMatches bound assignments accum))
  | _, bound, .assignment _ expression, accum => findAllMatches bound expression accum
  | _, _, .other _, accum => accum

/-! ### Polarity -/

inductive Polarity
  | positive
  | negative
  | less
  | more
  deriving DecidableEq

def Polarity.toggle : Polarity → Polarity
  | .positive => .negative
  | .negative => .positive
  | .less => .more
  | .more => .less

def arithPolarity (bpolarity : Option Polarity) (apolarity : Polarity) : Option Polarity :=
  match bpolarity with
  | some .positive => some apolarity
  | some .negative => some apolarity.toggle
  | _ => none

variable (template : Option Polarity)

def findOutMatchPolarity (out : Bool) (bound : List β) (e : Expr β ι) (insub : Option σ)
    (polarity : Option Polarity) : Option σ :=
  match insub with
  | none => if template ≠ polarity then callMatch bound e else none
  | some insub =>
    if out ∧ template ≠ polarity then someFindMatch (callMatch bound e) (some insub)
    else some insub

def findMatchArithPolarity (out : Bool) (bound : List β) : Expr β ι → Option Polarity → Option σ
  | .unary place .minus operator argument, polarity =>
    findOutMatchPolarity callMatch template out bound (.unary place .minus operator argument)
      (findMatchArithPolarity out bound argument (polarity.map .toggle)) polarity
  | .binary place .less operator args1 args2, polarity =>
    findOutMatchPolarity callMatch template out bound (.binary place .less operator args1 args2)
      (someFindMatch (findMatchArithPolarity out bound args1 (arithPolarity polarity .less))
        (findMatchArithPolarity out bound args2 (arithPolarity polarity .more))) polarity
  | .binary place .greater operator args1 args2, polarity =>
    findOutMatchPolarity callMatch template out bound (.binary place .greater operator args1 args2)
      (someFindMatch (findMatchArithPolarity out bound args1 (arithPolarity polarity .more))
        (findMatchArithPolarity out bound args1 (arithPolarity polarity .less))) polarity
  | .binary place .plus operator args1 args2, polarity =>
    findOutMatchPolarity callMatch template out bound (.binary place .plus operator args1 args2)
      (someFindMatch (findMatchArithPolarity out bound args1 polarity)
        (findMatchArithPolarity out bound args2 polarity)) polarity
  | .binary place .subMinus operator args1 args2, polarity =>
    findOutMatchPolarity callMatch template out bound (.binary place .subMinus operator args1 args2)
      (someFindMatch (findMatchArithPolarity out bound args1 polarity)
        (findMatchArithPolarity out bound args2 (polarity.map .toggle))) polarity
  | e, polarity => findOutMatchPolarity callMatch template out bound e none polarity

/-- `find-match-polarity`, which is called with a polarity -/
def findMatchPolarity (out : Bool) : List β → Expr β ι → Polarity → Option σ
  | bound, .unary place .negation operator argument, polarity =>
    findOutMatchPolarity callMatch template out bound (.unary place .negation operator argument)
      (findMatchPolarity out bound argument polarity.toggle) (some polarity)
  | bound, .unary place kind operator argument, polarity =>
    findOutMatchPolarity callMatch template out bound (.unary place kind operator argument)
      (findMatchArithPolarity callMatch template out bound (.unary place kind operator argument)
        (some polarity)) (some polarity)
  | bound, .binary place .implication operator args1 args2, polarity =>
    findOutMatchPolarity callMatch template out bound
      (.binary place .implication operator args1 args2)
      (someFindMatch (findMatchPolarity out bound args2 polarity)
        (findMatchPolarity out bound args1 polarity)) (some polarity)
  | bound, .binary place .conjunction operator args1 args2, polarity =>
    findOutMatchPolarity callMatch template out bound
      (.binary place .conjunction operator args1 args2)
      (someFindMatch (findMatchPolarity out bound args1 polarity)
        (findMatchPolarity out bound args2 polarity)) (some polarity)
  | bound, .binary place .disjunction operator args1 args2, polarity =>
    findOutMatchPolarity callMatch template out bound
      (.binary place .disjunction operator args1 args2)
      (someFindMatch (findMatchPolarity out bound args1 polarity)
        (findMatchPolarity out bound args2 polarity)) (some polarity)
  | bound, .binary place kind operator args1 args2, polarity =>
    findOutMatchPolarity callMatch template out bound (.binary place kind operator args1 args2)
      (findMatchArithPolarity callMatch template out bound
        (.binary place kind operator args1 args2) (some polarity)) (some polarity)
  | bound, .application place operator arguments, polarity =>
    findOutMatchPolarity callMatch template out bound (.application place operator arguments)
      (findMatchArithPolarity callMatch template out bound (.application place operator arguments)
        (some polarity)) (some polarity)
  | bound, .binding place bindings expression, polarity =>
    findOutMatchPolarity callMatch template out bound (.binding place bindings expression)
      (findMatchPolarity out (bindings ++ bound) expression polarity) (some polarity)
  -- the polarity does not count
  | bound, e, _ => findMatch callMatch out bound e

def findOutAllMatchesPolarity (bound : List β) (e : Expr β ι) (accum : List σ)
    (polarity : Option Polarity) : List σ :=
  if polarity ≠ none ∧ template ≠ polarity then findOutAllMatches callMatch bound e accum
  else accum

def findAllMatchesArithPolarity (bound : List β) :
    Expr β ι → List σ → Option Polarity → List σ
  | .unary place .minus operator argument, accum, polarity =>
    findOutAllMatchesPolarity callMatch template bound (.unary place .minus operator argument)
      (findAllMatchesArithPolarity bound argument accum (polarity.map .toggle)) polarity
  | .binary place .less operator args1 args2, accum, polarity =>
    findOutAllMatchesPolarity callMatch template bound (.binary place .less operator args1 args2)
      (findAllMatchesArithPolarity bound args1
        (findAllMatchesArithPolarity bound args2 accum (arithPolarity polarity .more))
        (arithPolarity polarity .less)) polarity
  | .binary place .greater operator args1 args2, accum, polarity =>
    findOutAllMatchesPolarity callMatch template bound
      (.binary place .greater operator args1 args2)
      (findAllMatchesArithPolarity bound args1
        (findAllMatchesArithPolarity bound args2 accum (arithPolarity polarity .less))
        (arithPolarity polarity .more)) polarity
  | .binary place .plus operator args1 args2, accum, polarity =>
    findOutAllMatchesPolarity callMatch template bound (.binary place .plus operator args1 args2)
      (findAllMatchesArithPolarity bound args1
        (findAllMatchesArithPolarity bound args2 accum polarity) polarity) polarity
  | .binary place .subMinus operator args1 args2, accum, polarity =>
    findOutAllMatchesPolarity callMatch template bound
      (.binary place .subMinus operator args1 args2)
      (findAllMatchesArithPolarity bound args1
        (findAllMatchesArithPolarity bound args2 accum (polarity.map .toggle)) polarity) polarity
  -- without the matches found before
  | .unary place kind operator argument, _, polarity =>
    findOutAllMatchesPolarity callMatch template bound (.unary place kind operator argument) []
      polarity
  | .binary place kind operator args1 args2, _, polarity =>
    findOutAllMatchesPolarity callMatch template bound (.binary place kind operator args1 args2) []
      polarity
  | .application place operator arguments, _, polarity =>
    findOutAllMatchesPolarity callMatch template bound (.application place operator arguments) []
      polarity
  | e, accum, polarity => findOutAllMatchesPolarity callMatch template bound e accum polarity

def findAllMatchesPolarity : List β → Expr β ι → List σ → Polarity → List σ
  | bound, .unary place .negation operator argument, accum, polarity =>
    findOutAllMatchesPolarity callMatch template bound (.unary place .negation operator argument)
      (findAllMatchesPolarity bound argument accum polarity.toggle) (some polarity)
  | bound, .unary place kind operator argument, accum, polarity =>
    findOutAllMatchesPolarity callMatch template bound (.unary place kind operator argument)
      (findAllMatchesArithPolarity callMatch template bound (.unary place kind operator argument)
        accum (some polarity)) (some polarity)
  | bound, .binary place .implication operator args1 args2, accum, polarity =>
    findOutAllMatchesPolarity callMatch template bound
      (.binary place .implication operator args1 args2)
      (findAllMatchesPolarity bound args2 (findAllMatchesPolarity bound args1 accum polarity)
        polarity.toggle) (some polarity)
  | bound, .binary place .conjunction operator args1 args2, accum, polarity =>
    findOutAllMatchesPolarity callMatch template bound
      (.binary place .conjunction operator args1 args2)
      (findAllMatchesPolarity bound args1 (findAllMatchesPolarity bound args2 accum polarity)
        polarity) (some polarity)
  | bound, .binary place .disjunction operator args1 args2, accum, polarity =>
    findOutAllMatchesPolarity callMatch template bound
      (.binary place .disjunction operator args1 args2)
      (findAllMatchesPolarity bound args1 (findAllMatchesPolarity bound args2 accum polarity)
        polarity) (some polarity)
  | bound, .binary place kind operator args1 args2, accum, polarity =>
    findOutAllMatchesPolarity callMatch template bound
      (.binary place kind operator args1 args2)
      (findAllMatchesArithPolarity callMatch template bound
        (.binary place kind operator args1 args2) accum (some polarity)) (some polarity)
  | bound, .application place operator arguments, accum, polarity =>
    findOutAllMatchesPolarity callMatch template bound (.application place operator arguments)
      (findAllMatchesArithPolarity callMatch template bound
        (.application place operator arguments) accum (some polarity)) (some polarity)
  | bound, .binding place bindings expression, accum, polarity =>
    findOutAllMatchesPolarity callMatch template bound (.binding place bindings expression)
      (findAllMatchesPolarity (bindings ++ bound) expression accum polarity) (some polarity)
  | bound, e, accum, polarity =>
    findOutAllMatchesPolarity callMatch template bound e accum (some polarity)

end PVS.Prover.Matches
