import Mathlib.Algebra.Field.Rat
import Mathlib.Algebra.Order.Ring.Unbundled.Rat
import Mathlib.Data.List.Basic

/-! The polynomials of `polyrep-totdeglex.lisp`: lists of monomials, greatest first, each of them a
coefficient and a power product, the list of its variables and their exponents. -/

universe u

namespace PVS.Nlyices

/-- The globals `*variables*` and `*parameters*`. -/
structure VarOrder (α : Type u) where
  vars : List α
  params : List α
  disjoint : ∀ x ∈ vars, x ∉ params

variable {α : Type u}

/-- `*order*` -/
def VarOrder.order (O : VarOrder α) : List α := O.vars ++ O.params

abbrev PP (α : Type u) : Type u := List (α × ℤ)

abbrev Mono (α : Type u) : Type u := ℚ × PP α

abbrev Poly (α : Type u) : Type u := List (Mono α)

variable [DecidableEq α]

/-! ### Comparison -/

/-- The loop of `polyrepCompareVar`. -/
def compareInOrder (v1 v2 : α) : List α → Option Ordering
  | [] => none
  | i :: order =>
    if v1 = i then some .gt else if v2 = i then some .lt else compareInOrder v1 v2 order

def polyrepCompareVar (order : List α) (v1 v2 : α) : Option Ordering :=
  if v1 = v2 then some .eq else compareInOrder v1 v2 order

variable (O : VarOrder α)

/-- `parameter?` -/
def parameterp (x : α) : Bool := decide (x ∈ O.params)

def totalDegree (mu : PP α) : ℤ := (mu.map Prod.snd).sum

/-- `polyrepComparePP-old*` -/
def polyrepComparePP : PP α → PP α → Ordering
  | [], [] => .eq
  | [], m2 :: _ => if 0 < m2.2 then .lt else .gt
  | m1 :: _, [] => if 0 < m1.2 then .gt else .lt
  | m1 :: mu1, m2 :: mu2 =>
    let n1 := totalDegree (m1 :: mu1)
    let n2 := totalDegree (m2 :: mu2)
    if parameterp O m1.1 && parameterp O m2.1 && decide (n2 < n1) then .gt
    else if parameterp O m1.1 && parameterp O m2.1 && decide (n1 < n2) then .lt
    else
      match polyrepCompareVar O.order m1.1 m2.1 with
      | some .eq =>
        if m1.2 = m2.2 then polyrepComparePP mu1 mu2 else if m2.2 < m1.2 then .gt else .lt
      | some .gt => if 0 < m1.2 then .gt else .lt
      | _ => if 0 < m2.2 then .lt else .gt

/-- `polyrepEqual?` -/
def polyrepEqual : Poly α → Poly α → Bool
  | [], [] => true
  | [], _ :: _ => false
  | _ :: _, [] => false
  | m1 :: p1, n1 :: q1 =>
    if m1.1 = n1.1 then
      match polyrepComparePP O m1.2 n1.2 with
      | .eq => polyrepEqual p1 q1
      | _ => false
    else false

/-! ### Addition and multiplication -/

/-- `polyrepAddPoly*`: `r` is the result so far, the last monomial first. -/
def polyrepAddPoly' (p q r : Poly α) : Poly α :=
  match p, q with
  | [], q => r.reverse ++ q
  | p, [] => r.reverse ++ p
  | c0s0 :: p, d0t0 :: q =>
    match polyrepComparePP O c0s0.2 d0t0.2 with
    | .lt => polyrepAddPoly' (c0s0 :: p) q (d0t0 :: r)
    | .gt => polyrepAddPoly' p (d0t0 :: q) (c0s0 :: r)
    | .eq =>
      let c1 := c0s0.1 + d0t0.1
      polyrepAddPoly' p q (if c1 = 0 then r else (c1, c0s0.2) :: r)
  termination_by p.length + q.length

def polyrepAddPoly (p q : Poly α) : Poly α := polyrepAddPoly' O p q []

def polyrepNegativePoly (p : Poly α) : Poly α := p.map fun cisi => (-cisi.1, cisi.2)

def polyrepMultiplyPP : PP α → PP α → PP α
  | [], t0 => t0
  | s0, [] => s0
  | x1 :: s0, y1 :: t0 =>
    match polyrepCompareVar O.order x1.1 y1.1 with
    | some .eq =>
      let expo := x1.2 + y1.2
      if expo = 0 then polyrepMultiplyPP s0 t0 else (x1.1, expo) :: polyrepMultiplyPP s0 t0
    | some .gt => x1 :: polyrepMultiplyPP s0 (y1 :: t0)
    | _ => y1 :: polyrepMultiplyPP (x1 :: s0) t0
  termination_by s t => s.length + t.length

def polyrepMultiplyMonoPoly (d0t0 : Mono α) (p : Poly α) : Poly α :=
  p.map fun c0s0 => (d0t0.1 * c0s0.1, polyrepMultiplyPP O d0t0.2 c0s0.2)

def polyrepMultiplyPoly : Poly α → Poly α → Poly α
  | [], _ => []
  | _, [] => []
  | [m], q => polyrepMultiplyMonoPoly O m q
  | p, [m] => polyrepMultiplyMonoPoly O m p
  | m :: p, q => polyrepAddPoly O (polyrepMultiplyMonoPoly O m q) (polyrepMultiplyPoly p q)

def polyrepMultiplyCstPoly (c : ℚ) (p : Poly α) : Poly α :=
  if c = 1 then p else if c = 0 then [] else p.map fun c0s0 => (c * c0s0.1, c0s0.2)

def polyrepExpPPCst (s0 : PP α) (c : ℤ) : PP α := s0.map fun i => (i.1, c * i.2)

def polyrepExpMonoCst (c0s0 : Mono α) (c : ℤ) : Mono α := (c0s0.1 ^ c, polyrepExpPPCst c0s0.2 c)

/-- `polyrepExpPolyCst*`, called with a positive exponent. -/
def polyrepExpPolyCst' (p : Poly α) : ℕ → Poly α
  | 0 => p
  | 1 => p
  | c + 2 => polyrepMultiplyPoly O p (polyrepExpPolyCst' p (c + 1))

/-- A polynomial that is no monomial has no negative powers. -/
def polyrepExpPolyCst (p : Poly α) (c : ℤ) : Poly α :=
  if 1 ≤ c then polyrepExpPolyCst' O p c.toNat
  else if c = 0 then [(1, [])]
  else
    match p with
    | [c0s0] => [polyrepExpMonoCst c0s0 c]
    | _ => []

/-! ### Substitution -/

def applySubstitutionUni (xToC : α × ℤ) (xfx : α × Poly α) : Poly α :=
  if xToC.1 = xfx.1 then polyrepExpPolyCst O xfx.2 xToC.2 else [(1, [xToC])]

def applySubstitutionPP (xfx : α × Poly α) : PP α → Poly α
  | [] => [(1, [])]
  | [m] => applySubstitutionUni O m xfx
  | m :: p => polyrepMultiplyPoly O (applySubstitutionUni O m xfx) (applySubstitutionPP xfx p)

def applySubstitutionMono (p : Mono α) (xfx : α × Poly α) : Poly α :=
  polyrepMultiplyCstPoly p.1 (applySubstitutionPP O xfx p.2)

def applySubstitutionPoly (xfx : α × Poly α) : Poly α → Poly α
  | [] => []
  | m :: p => polyrepAddPoly O (applySubstitutionMono O m xfx) (applySubstitutionPoly xfx p)

def applySubstitution (p : Poly α) : List (α × Poly α) → Poly α
  | [] => p
  | xfx :: map => applySubstitution (applySubstitutionPoly O xfx p) map

/-! ### Derivatives -/

def derivativeNewVar (var : α) (flow : List (α × Poly α)) : Poly α := (flow.lookup var).getD []

/-- The factor `varⁿ` of a power product. -/
def derivativeNewFactor (m : α × ℤ) (flow : List (α × Poly α)) : Poly α :=
  let vardot := derivativeNewVar m.1 flow
  if vardot = [] then []
  else if m.2 = 1 then vardot
  else polyrepMultiplyMonoPoly O (m.2, [(m.1, m.2 - 1)]) vardot

def derivativeNewPP (flow : List (α × Poly α)) : PP α → Poly α
  | [] => []
  | [m] => derivativeNewFactor O m flow
  | m :: pp =>
    polyrepAddPoly O (polyrepMultiplyMonoPoly O (1, pp) (derivativeNewFactor O m flow))
      (polyrepMultiplyMonoPoly O (1, [m]) (derivativeNewPP flow pp))

def derivativeNewPol (flow : List (α × Poly α)) : Poly α → Poly α
  | [] => []
  | term1 :: rest1 =>
    let mu1dot := derivativeNewPP O flow term1.2
    if mu1dot = [] then derivativeNewPol flow rest1
    else polyrepAddPoly O (polyrepMultiplyCstPoly term1.1 mu1dot) (derivativeNewPol flow rest1)

end PVS.Nlyices
