import Mathlib.Data.Rat.Defs

/-! Proof scripts: the justification of a proof, its s-expression, and the form of it that is edited. -/

namespace PVS.Prover

inductive Sexp
  | nil
  | sym (name : String)
  | str (s : String)
  | num (n : ℚ)
  | cons (a d : Sexp)
  deriving DecidableEq

namespace Sexp

/-- `none` is the type error on an atom. -/
def car : Sexp → Option Sexp
  | nil => some nil
  | cons a _ => some a
  | _ => none

def cdr : Sexp → Option Sexp
  | nil => some nil
  | cons _ d => some d
  | _ => none

def cadr (s : Sexp) : Option Sexp := s.cdr >>= car
def caddr (s : Sexp) : Option Sexp := s.cdr >>= cadr
def cadddr (s : Sexp) : Option Sexp := s.cdr >>= caddr

def consp : Sexp → Bool
  | cons _ _ => true
  | _ => false

def listp : Sexp → Bool
  | nil => true
  | s => s.consp

def ofList : List Sexp → Sexp
  | [] => nil
  | a :: l => cons a (ofList l)

def append : Sexp → Sexp → Option Sexp
  | nil, t => some t
  | cons a d, t => (d.append t).map (cons a)
  | _, _ => none

/-- The element of a `singleton?` list. -/
def singleton : Sexp → Option Sexp
  | cons a nil => some a
  | _ => none

/-! ### The slots of a script -/

def label : Sexp → Option Sexp
  | nil => some nil
  | cons a d => if a.listp then d.car else some a
  | _ => some (str "9999")

def rule : Sexp → Option Sexp
  | nil => some nil
  | cons a d => if a.listp then d.cadr else d.car
  | _ => some (ofList [sym "skip"])

def subgoals : Sexp → Option Sexp
  | nil => some nil
  | cons a d => if a.listp then d.caddr else d.cadr
  | _ => some nil

def comment : Sexp → Option Sexp
  | nil => some nil
  | cons _ d => d.caddr
  | _ => none

end Sexp

open Sexp

/-- The class `justification`. The slot `xrule` is left out, it is read when `xflag` is set only. -/
inductive Justification
  | mk (label : String) (rule : Sexp) (subgoals : List Justification) (comment : Option String)

namespace Justification

def label : Justification → String
  | mk label _ _ _ => label

def rule : Justification → Sexp
  | mk _ rule _ _ => rule

def subgoals : Justification → List Justification
  | mk _ _ subgoals _ => subgoals

def comment : Justification → Option String
  | mk _ _ _ comment => comment

end Justification

def commentSexp : Option String → Sexp
  | none => .nil
  | some s => .str s

/-- On an s-expression; what is no s-expression is printed. -/
def sexpUnparse : Sexp → Sexp
  | .cons a d => .cons (sexpUnparse a) (sexpUnparse d)
  | s => s

mutual

def extractJustificationSexp : Justification → Sexp
  | .mk label rule subgoals comment =>
    ofList [.str label, sexpUnparse rule, extractAll subgoals, commentSexp comment]

/-- `extract-justification-sexp` on a list. -/
def extractAll : List Justification → Sexp
  | [] => .nil
  | j :: js => .cons (extractJustificationSexp j) (extractAll js)

end

/-! ### Editing -/

/-- With `no-escape?`. -/
def formatRule : Sexp → Option Sexp
  | .nil => some .nil
  | .cons (.sym "typechecked") d => do
    let form ← d.car
    let type ← d.cadr
    some (ofList [form, .sym "!type", type])
  | .cons a d => do
    let a' ← formatRule a
    let d' ← formatRule d
    some (.cons a' d')
  | s => some s

def typeForm : Sexp → Sexp → Option Sexp
  | .str s, .cons (.sym k) (.cons type .nil) =>
    if k = ":type" ∨ k = "!type" then some (ofList [.sym "typechecked", .str s, type]) else none
  | _, _ => none

def unformatRule : Sexp → Sexp
  | .cons a d => (typeForm a d).getD (.cons (unformatRule a) (unformatRule d))
  | s => s

/-- The rule reruns a script that has the label of the node. -/
def reruns (rule : Sexp) (jlabel : String) : Option Bool :=
  match rule with
  | .cons (.sym "rerun") d => do
    let script ← d.car
    let l ← script.label
    some (l == .str jlabel)
  | _ => some false

mutual

/-- Without `xflag` and `full-label`. -/
def editableJustification : Justification → Option String → Option Sexp
  | .mk jlabel rule subgoals comment, label => do
    if ← reruns rule jlabel then rule.cadr
    else
      let topStep ← formatRule rule
      let rest ← editableSubgoals jlabel subgoals
      let ejustif := Sexp.cons topStep rest
      let ejustif := match comment with
        | some c => .cons (.str c) ejustif
        | none => ejustif
      some (if some jlabel = label then ejustif else .cons (.str jlabel) ejustif)

/-- `editable-justification*`. -/
def editableSubgoals (label : String) : List Justification → Option Sexp
  | [] => some .nil
  | [j] => editableJustification j (some label)
  | j₁ :: j₂ :: js => do
    let e ← editableJustification j₁ none
    let es ← editableEach (j₂ :: js)
    some (.cons (.cons e es) .nil)

def editableEach : List Justification → Option Sexp
  | [] => some .nil
  | j :: js => do
    let e ← editableJustification j none
    let es ← editableEach js
    some (.cons e es)

end

def digitString (s : String) : Bool := s.toList.all Char.isDigit

mutual

/-- The label `nil` is no label. -/
def revertJustification : Sexp → Sexp → Option Sexp
  | .nil, _ => some .nil
  | .cons top rest, label =>
    if label = .nil then
      match rest with
      | .nil => some (ofList [top, .nil, .nil])
      | .cons second rest =>
        if second.listp then do
          let subgoals ← revertJustification rest top
          some (ofList [top, unformatRule second, subgoals])
        else do
          let rjust ← revertJustification rest top
          let just ← rjust.singleton
          just.append (ofList [second])
      | _ => none
    else
      match top with
      | .cons (.cons a d) tops => revertEach (.cons (.cons a d) tops)
      | .cons a d => do
        let subgoals ← revertJustification rest label
        some (ofList [ofList [label, unformatRule (.cons a d), subgoals]])
      | .nil => revertJustification rest label
      | .str s =>
        if digitString s then revertJustification rest label
        else do
          let steps ← revertJustification rest label
          steps.append (ofList [.str s])
      | _ => none
  | _, _ => none

/-- `(mapcar #'revert-justification …)`. -/
def revertEach : Sexp → Option Sexp
  | .nil => some .nil
  | .cons e es => do
    let just ← revertJustification e .nil
    let justs ← revertEach es
    some (.cons just justs)
  | _ => none

end

end PVS.Prover
