import Mathlib.Algebra.BigOperators.Group.List.Basic
import Mathlib.Algebra.Field.Rat
import Mathlib.Data.Rat.Cast.CharZero

/-! Sums and products of numeric expressions, as `assert.lisp` takes them apart and rebuilds them. -/

namespace PVS.Assert

/-- `atom` is what is neither a literal nor an application of an operator of `number_fields`. -/
inductive NumExpr (α : Type)
  | atom (a : α)
  | number (q : ℚ)
  | minus (e : NumExpr α)
  | plus (lhs rhs : NumExpr α)
  | difference (lhs rhs : NumExpr α)
  | times (lhs rhs : NumExpr α)
  | divides (lhs rhs : NumExpr α)
  deriving DecidableEq

namespace NumExpr

variable {α : Type}

def isSum : NumExpr α → Bool
  | plus _ _ => true
  | difference _ _ => true
  | _ => false

/-- `make!-minus` -/
def mkMinus : NumExpr α → NumExpr α
  | number q => number (-q)
  | e => minus e

/-- `make!-plus` -/
def mkPlus : NumExpr α → NumExpr α → NumExpr α
  | number p, number q => number (p + q)
  | e, e' => plus e e'

/-- `make!-difference` -/
def mkDifference : NumExpr α → NumExpr α → NumExpr α
  | number p, number q => number (p - q)
  | e, e' => difference e e'

/-- `make!-times` -/
def mkTimes : NumExpr α → NumExpr α → NumExpr α
  | number p, number q => number (p * q)
  | e, e' => times e e'

def coefficient : NumExpr α → ℚ
  | times (number q) _ => q
  | times (minus (number q)) _ => 0 - q
  | times _ _ => 1
  | number q => q
  | minus (number q) => 0 - q
  | _ => 1

def noncoefficient : NumExpr α → Option (NumExpr α)
  | times (number _) e => some e
  | times (minus (number _)) e => some e
  | number _ => none
  | minus (number _) => none
  | e => some e

def multiplicands : NumExpr α → List (NumExpr α)
  | times a b => a.multiplicands ++ b.multiplicands
  | e => [e]

/-- `addends*`: what is added and what is subtracted. -/
def posNegAddends : NumExpr α → List (NumExpr α) × List (NumExpr α)
  | plus a b =>
    (a.posNegAddends.1 ++ b.posNegAddends.1, a.posNegAddends.2 ++ b.posNegAddends.2)
  | difference a b =>
    (a.posNegAddends.1 ++ b.posNegAddends.2, a.posNegAddends.2 ++ b.posNegAddends.1)
  | e => ([e], [])

/-- The number of sums and differences. -/
def sums : NumExpr α → ℕ
  | atom _ => 0
  | number _ => 0
  | minus e => e.sums
  | plus a b => a.sums + b.sums + 1
  | difference a b => a.sums + b.sums + 1
  | times a b => a.sums + b.sums
  | divides a b => a.sums + b.sums

attribute [simp] sums mkMinus

section Values

variable {K : Type} [Field K] (ρ : α → K)

def eval : NumExpr α → K
  | atom a => ρ a
  | number q => q
  | minus e => -e.eval
  | plus a b => a.eval + b.eval
  | difference a b => a.eval - b.eval
  | times a b => a.eval * b.eval
  | divides a b => a.eval / b.eval

/-- The value of what `noncoefficient` leaves. -/
def evalBody (e : Option (NumExpr α)) : K := (e.map (eval ρ)).getD 1

def evalSum (l : List (NumExpr α)) : K := (l.map (eval ρ)).sum

def evalProd (l : List (NumExpr α)) : K := (l.map (eval ρ)).prod

end Values

end NumExpr

open NumExpr

/-- The functions that are called. `sort` sorts by `arith-ord-translate`, which need not be an
order. -/
structure Callees (α : Type) where
  tcEq : NumExpr α → NumExpr α → Bool
  tcEq_sound : ∀ {e e'}, tcEq e e' = true →
    ∀ {K : Type} [Field K] [CharZero K] (ρ : α → K), e.eval ρ = e'.eval ρ
  sort : List (NumExpr α) → List (NumExpr α)
  sort_perm : ∀ l, (sort l).Perm l
  connectiveOccurs : List (NumExpr α) → Bool

variable {α : Type} (C : Callees α)

/-- `tc-eq` on what `noncoefficient` returns. -/
def Callees.tcEqBody : Option (NumExpr α) → Option (NumExpr α) → Bool
  | none, none => true
  | some e, some e' => C.tcEq e e'
  | _, _ => false

/-- `make-prod*` -/
def makeProdSorted : List (NumExpr α) → NumExpr α
  | [] => .number 1
  | [e] => e
  | a1 :: a2 :: list =>
    if a1.coefficient = 0 ∨ a2.coefficient = 0 then .number 0
    else
      let prod := a1.coefficient * a2.coefficient
      let coeff : NumExpr α := if prod < 0 then mkMinus (.number (-prod)) else .number prod
      let body :=
        match a1.noncoefficient, a2.noncoefficient with
        | none, b => b
        | some b, none => some b
        | some b, some b' => some (mkTimes b b')
      let e :=
        match body with
        | none => coeff
        | some b => if prod = 1 then b else mkTimes coeff b
      makeProdSorted (e :: list)
termination_by l => l.length

def makeProd (list : List (NumExpr α)) : NumExpr α := makeProdSorted (C.sort list)

def makeMinus (e : NumExpr α) : NumExpr α :=
  let coef := e.coefficient
  let newcoeff : NumExpr α :=
    if coef < 0 then .number (-coef) else mkMinus (.number coef)
  match e.noncoefficient with
  | none => newcoeff
  | some body => makeProd C [newcoeff, body]

def addends (e : NumExpr α) : List (NumExpr α) :=
  e.posNegAddends.1 ++ e.posNegAddends.2.map (makeMinus C)

/-- `make-sum*` -/
def makeSumSorted : List (NumExpr α) → NumExpr α
  | [] => .number 0
  | [e] => e
  | a1 :: a2 :: list =>
    let e1 :=
      if a2.coefficient < 0 then mkDifference a1 (makeMinus C a2)
      else if a1.coefficient < 0 then mkDifference a2 (makeMinus C a1)
      else if a2.coefficient = 0 then a1
      else if a1.coefficient = 0 then a2
      else mkPlus a1 a2
    makeSumSorted (e1 :: list)
termination_by l => l.length

def makeSum (list : List (NumExpr α)) : NumExpr α :=
  if C.connectiveOccurs list then makeSumSorted C list else makeSumSorted C (C.sort list)

/-- `newterm` of `mergesums*` -/
def newterm (newcoeff : ℚ) (l1b : Option (NumExpr α)) : NumExpr α :=
  let ncoeff : NumExpr α :=
    if newcoeff < 0 then mkMinus (.number (-newcoeff)) else .number newcoeff
  match l1b with
  | none => ncoeff
  | some b => if newcoeff = 1 then b else makeProd C [ncoeff, b]

/-- `mergesums*` -/
def mergesumsList : List (NumExpr α) → List (NumExpr α) → List (NumExpr α)
  | [], list2 => list2
  | l1 :: list1, [] => l1 :: list1
  | l1 :: list1, l2 :: list2 =>
    let l1b := l1.noncoefficient
    let same := fun e : NumExpr α => C.tcEqBody l1b e.noncoefficient
    let newlist2 := (l2 :: list2).filter fun e => !same e
    let newcoeff := l1.coefficient +
      ((l2 :: list2).map fun e => if same e then e.coefficient else 0).sum
    let restlist :=
      if list1.isEmpty && newlist2.isEmpty then [] else mergesumsList list1 newlist2
    if newcoeff = 0 then restlist else newterm C newcoeff l1b :: restlist

def mergesums (list1 list2 : List (NumExpr α)) : NumExpr α := makeSum C (mergesumsList C list1 list2)

def getMergedSum (lhs rhs : NumExpr α) (addition : Bool) : NumExpr α :=
  let expr : NumExpr α := if addition then .plus lhs rhs else .difference lhs rhs
  let rsums := if addition then addends C rhs else (addends C rhs).map (makeMinus C)
  let msum := mergesums C (addends C lhs) rsums
  if C.tcEq msum expr then expr else msum

/-! ### Termination -/

/-- The literal that is built for a rational is that rational. -/
theorem signed_number (q : ℚ) :
    (if q < 0 then mkMinus (.number (-q)) else .number q : NumExpr α) = .number q := by
  split
  · rw [mkMinus, neg_neg]
  · rfl

theorem signed_number_neg (q : ℚ) :
    (if q < 0 then .number (-q) else mkMinus (.number q) : NumExpr α) = .number (-q) := by
  split
  · rfl
  · rw [mkMinus]

theorem NumExpr.sums_noncoefficient {e b : NumExpr α} (h : e.noncoefficient = some b) :
    b.sums ≤ e.sums := by
  revert h
  fun_cases noncoefficient e <;> intro h <;> cases h <;> simp [sums]

theorem NumExpr.sums_mkTimes (e e' : NumExpr α) : (mkTimes e e').sums ≤ e.sums + e'.sums := by
  fun_cases mkTimes e e' <;> simp [sums]

theorem sums_scaled (q : ℚ) (b : Option (NumExpr α)) (n : ℕ) :
    (∀ e, b = some e → e.sums ≤ n) →
      (match b with
        | none => .number q
        | some b => if q = 1 then b else mkTimes (.number q) b : NumExpr α).sums ≤ n := by
  intro h
  cases b with
  | none => exact Nat.zero_le _
  | some b =>
    have hb := h b rfl
    dsimp only
    split
    · exact hb
    · exact (sums_mkTimes ..).trans (by simpa [sums] using hb)

theorem sums_makeProdSorted (l : List (NumExpr α)) :
    (makeProdSorted l).sums ≤ (l.map sums).sum := by
  fun_induction makeProdSorted l with
  | case1 => simp [sums]
  | case2 e => simp
  | case3 a1 a2 list h => simp [sums]
  | case4 a1 a2 list h prod coeff body e ih =>
    have hcoeff : coeff = .number prod := signed_number prod
    have hbody : ∀ b, body = some b → b.sums ≤ a1.sums + a2.sums := by
      intro b hb
      unfold body at hb
      split at hb
      · exact (sums_noncoefficient hb).trans (Nat.le_add_left ..)
      · rename_i h1 h2
        cases hb
        exact (sums_noncoefficient h1).trans (Nat.le_add_right ..)
      · rename_i h1 h2
        cases hb
        exact (sums_mkTimes ..).trans
          (Nat.add_le_add (sums_noncoefficient h1) (sums_noncoefficient h2))
    have he : e.sums ≤ a1.sums + a2.sums := by
      simp only [e, hcoeff]
      exact sums_scaled prod body _ hbody
    simp only [List.map_cons, List.sum_cons] at ih ⊢
    omega

theorem sums_makeProd (l : List (NumExpr α)) : (makeProd C l).sums ≤ (l.map sums).sum := by
  rw [makeProd, ← ((C.sort_perm l).map sums).sum_eq]
  exact sums_makeProdSorted _

theorem sums_makeMinus (e : NumExpr α) : (makeMinus C e).sums ≤ e.sums := by
  unfold makeMinus
  dsimp only
  rw [signed_number_neg]
  split
  · exact Nat.zero_le _
  · rename_i body h
    refine (sums_makeProd C _).trans ?_
    simpa [sums] using sums_noncoefficient h

theorem sums_posNegAddends {e x : NumExpr α}
    (h : x ∈ e.posNegAddends.1 ∨ x ∈ e.posNegAddends.2) : x.sums + e.isSum.toNat ≤ e.sums := by
  have hle : ∀ {e : NumExpr α}, x.sums + e.isSum.toNat ≤ e.sums → x.sums ≤ e.sums :=
    fun h => (Nat.le_add_right ..).trans h
  induction e with
  | plus a b iha ihb =>
    simp only [posNegAddends, List.mem_append] at h
    have hx : x.sums ≤ a.sums ∨ x.sums ≤ b.sums := by
      rcases h with (h | h) | (h | h)
      · exact .inl (hle (iha (.inl h)))
      · exact .inr (hle (ihb (.inl h)))
      · exact .inl (hle (iha (.inr h)))
      · exact .inr (hle (ihb (.inr h)))
    simp only [sums, isSum, Bool.toNat_true]
    omega
  | difference a b iha ihb =>
    simp only [posNegAddends, List.mem_append] at h
    have hx : x.sums ≤ a.sums ∨ x.sums ≤ b.sums := by
      rcases h with (h | h) | (h | h)
      · exact .inl (hle (iha (.inl h)))
      · exact .inr (hle (ihb (.inr h)))
      · exact .inl (hle (iha (.inr h)))
      · exact .inr (hle (ihb (.inl h)))
    simp only [sums, isSum, Bool.toNat_true]
    omega
  | _ =>
    simp only [posNegAddends, List.mem_singleton, List.not_mem_nil, or_false] at h
    rw [h]
    exact le_rfl

/-- An addend of a sum has fewer sums. -/
theorem sums_addends {e x : NumExpr α} (hsum : e.isSum = true) (h : x ∈ addends C e) :
    x.sums < e.sums := by
  have hlt : ∀ {y : NumExpr α}, y.sums + e.isSum.toNat ≤ e.sums → y.sums < e.sums := by
    intro y hy
    rw [hsum, Bool.toNat_true] at hy
    omega
  rw [addends, List.mem_append] at h
  obtain h | h := h
  · exact hlt (sums_posNegAddends (.inl h))
  · obtain ⟨y, hy, rfl⟩ := List.mem_map.1 h
    exact (sums_makeMinus C y).trans_lt (hlt (sums_posNegAddends (.inr hy)))

def mergeProducts (l r : NumExpr α) : NumExpr α :=
  if _hl : l.isSum then
    makeSum C ((addends C l).attach.map fun x => mergeProducts x.1 r)
  else if _hr : r.isSum then
    makeSum C ((addends C r).attach.map fun x => mergeProducts l x.1)
  else
    let newcoeff := l.coefficient * r.coefficient
    let prodlist :=
      match l.noncoefficient, r.noncoefficient with
      | some lb, some rb => lb.multiplicands ++ rb.multiplicands
      | some lb, none => lb.multiplicands
      | none, some rb => rb.multiplicands
      | none, none => []
    if newcoeff = 0 then .number 0
    else if newcoeff = 1 then makeProd C prodlist
    else
      makeProd C
        [if newcoeff < 0 then mkMinus (.number (-newcoeff)) else .number newcoeff,
          makeProd C prodlist]
termination_by l.sums + r.sums
decreasing_by
  · exact Nat.add_lt_add_right (sums_addends C _hl x.2) _
  · exact Nat.add_lt_add_left (sums_addends C _hr x.2) _

/-- `cancel-terms*`: whether something is cancelled, and what remains. -/
def cancelTermsFrom : List (NumExpr α) → List (NumExpr α) → List (NumExpr α) → Bool →
    Bool × List (NumExpr α) × List (NumExpr α)
  | [], rhs, lhsAccum, sig => (sig, lhsAccum.reverse, rhs)
  | e :: lhs, rhs, lhsAccum, sig =>
    match rhs.find? (C.tcEq e) with
    | some _ => cancelTermsFrom lhs (rhs.eraseP (C.tcEq e)) lhsAccum true
    | none => cancelTermsFrom lhs rhs (e :: lhsAccum) sig

def cancelTerms (lhs rhs : List (NumExpr α)) : Bool × List (NumExpr α) × List (NumExpr α) :=
  cancelTermsFrom C lhs rhs [] false

/-- What an equation is replaced by. -/
inductive Cancelled (α : Type)
  | unchanged
  | true
  | equation (lhs rhs : NumExpr α)

/-- The expression that goes to `do-auto-rewrite`. -/
def assertNumericEquality (lhs rhs : NumExpr α) : Cancelled α :=
  let lhsAddends := addends C lhs
  let rhsAddends := addends C rhs
  if lhsAddends.length = 1 ∧ rhsAddends.length = 1 then .unchanged
  else
    match cancelTerms C lhsAddends rhsAddends with
    | (true, [], []) => .true
    | (true, newLhs, newRhs) => .equation (makeSum C newLhs) (makeSum C newRhs)
    | (false, _, _) => .unchanged

end PVS.Assert
