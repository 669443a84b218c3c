import PVS.Prover.ReplaceValue
import PVS.Prover.Sequent

/-! The rule that replaces one side of a formula of a sequent by the other in its formulas. -/

namespace PVS.Prover

/-- `s-formula` -/
structure SFormula where
  formula : Expr
  label : List String
  deriving DecidableEq

/-- What the selectors of a sequent see. -/
def SFormula.view (x : SFormula) : SForm SFormula Unit where
  formula := if x.formula.isNegation then .negation (.atom x) else .atom x
  label := x.label

def unview (y : SForm SFormula Unit) : Option SFormula :=
  match y.formula with
  | .negation (.atom x) => some x
  | .atom x => some x
  | _ => none

/-- `sequent` -/
structure Goal where
  sForms : List SFormula
  hiddenSForms : List SFormula

structure ReplaceArgs where
  sourceSformnum : Fnum
  targetSformnums : Fnums
  rl : Bool
  hide : Bool
  dontDelete : Bool
  useRationals : Bool

def args1 : Expr → Expr
  | .tuple (.cons a _) => a
  | .tuple _ => .nil
  | arg => arg

/-- It is `nil` for an argument that is no tuple. -/
def args2 : Expr → Expr
  | .tuple (.cons _ (.cons b _)) => b
  | _ => .nil

/-- The argument of an equation, and of an application of `IFF`. -/
def equationArgument : Expr → Option Expr
  | .connective .equation arg => some arg
  | .connective .boolEquation arg => some arg
  | .app .iff arg => some arg
  | _ => none

/-- `lhs` and `rhs` of `replace-step` -/
def replaceSides (rl : Bool) : Expr → Expr × Expr
  | .connective .negation f =>
    match equationArgument f with
    | some arg => if rl then (args2 arg, args1 arg) else (args1 arg, args2 arg)
    | none => (f, .bool true)
  | f => (f, .bool false)

variable (C : Callees)

/-- The formula that `replace-loop` keeps for `x`. -/
def replaceSForm (a : ReplaceArgs) (n : ℕ) (lhs rhs : Expr) (x : SFormula) : SFormula :=
  let result := { x with formula := replaceExpr C a.useRationals n lhs rhs x.formula [] }
  if a.dontDelete && C.tcEq result.formula (.bool false) then x else result

def replaceLoop (a : ReplaceArgs) (n : ℕ) (lhs rhs : Expr) (sformnum : ℤ) (sformnums : List Fnum) :
    List SFormula → ℤ → ℤ → List SFormula
  | [], _, _ => []
  | x :: sforms, pos, neg =>
    if x.formula.isNegation then
      (if sformnum = neg ∨ inSformnums x.view pos neg sformnums = false then x
        else replaceSForm C a n lhs rhs x) ::
        replaceLoop a n lhs rhs sformnum sformnums sforms pos (neg - 1)
    else
      (if sformnum = pos ∨ inSformnums x.view pos neg sformnums = false then x
        else replaceSForm C a n lhs rhs x) ::
        replaceLoop a n lhs rhs sformnum sformnums sforms (pos + 1) neg

/-- The number of the formula that is used, and the formula. -/
def ReplaceArgs.source (a : ReplaceArgs) (s : Goal) : Option (ℤ × SFormula) := do
  let sformnum ← findSform (s.sForms.map SFormula.view) a.sourceSformnum fun _ => true
  let y ← (selectSeq (s.sForms.map SFormula.view) (.atom (.num sformnum))).head?
  return (sformnum, ← unview y)

def ReplaceArgs.targets (a : ReplaceArgs) (s : Goal) : List ℤ :=
  findAllSformnums (s.sForms.map SFormula.view) a.targetSformnums fun _ => true

def newSForms (a : ReplaceArgs) (n : ℕ) (s : Goal) (sformnum : ℤ) (x : SFormula) : List SFormula :=
  let sides := replaceSides a.rl x.formula
  replaceLoop C a n sides.1 sides.2 sformnum ((a.targets s).map .num) s.sForms 1 (-1)

/-- `none` is the signal `'X`. -/
def replaceStep (a : ReplaceArgs) (n : ℕ) (s : Goal) : Option Goal :=
  match a.source s with
  | none => none
  | some (sformnum, x) =>
    if (a.targets s).isEmpty then none
    else
      let new := newSForms C a n s sformnum x
      if new = s.sForms then none
      else if a.hide then
        some {
          sForms := new.filter fun y => y ≠ x
          hiddenSForms :=
            if s.hiddenSForms.any fun y => C.tcEq x.formula y.formula then s.hiddenSForms
            else x :: s.hiddenSForms }
      else some { s with sForms := new }

/-! ### What is asked -/

/-- No formula of the sequent holds, hidden ones included: the valuation is a counterexample. -/
def Goal.Refuted {D : Type} (M : Model D) (ρ : ℕ → D) (s : Goal) : Prop :=
  ∀ x ∈ s.sForms ++ s.hiddenSForms, x.formula.eval M ρ = M.bool false

/-- An equation in the antecedent is one between two expressions. -/
def PairEquation : Expr → Prop
  | .connective .negation f =>
    ∀ arg, equationArgument f = some arg → ∃ e e' d, arg = .tuple (.cons e (.cons e' d))
  | _ => True

/-- The formula that is used, and those that it is used on, are as `replace-expr*` needs them. -/
def ReplaceArgs.Suitable (a : ReplaceArgs) (s : Goal) : Prop :=
  ∀ sformnum x, a.source s = some (sformnum, x) →
    PairEquation x.formula ∧
      ∀ p ∈ positions (s.sForms.map SFormula.view) 1 (-1), p.number ∈ a.targets s →
        p.number ≠ sformnum → ∀ y, unview p.sform = some y →
          Replaceable C (replaceSides a.rl x.formula).1 (replaceSides a.rl x.formula).2 y.formula []

variable {C} {D : Type} {M : Model D} {ρ : ℕ → D}

/-! ### The two sides -/

theorem equation_eq_true {a b : D} (h : M.connective .equation a b = M.bool true) : a = b := by
  by_contra hne
  exact M.bool_ne ((if_neg hne).symm.trans h).symm

theorem boolEquation_eq_true {a b : D} (h : M.connective .boolEquation a b = M.bool true) :
    a = b := by
  rw [Model.connective] at h
  split at h
  · rename_i ha
    rw [ha, h]
  · split at h
    · rename_i hb
      rw [hb, h]
    · split at h
      · assumption
      · exact absurd h.symm M.bool_ne

theorem eval_equationArgument {f arg : Expr} (hf : equationArgument f = some arg)
    (h : f.eval M ρ = M.bool true) :
    M.unary (.projection 1) (arg.eval M ρ) = M.unary (.projection 2) (arg.eval M ρ) := by
  unfold equationArgument at hf
  split at hf <;> cases hf
  · exact equation_eq_true h
  · exact boolEquation_eq_true h
  · exact M.app_iff _ h

/-- Where the formula is false, the two sides have the same value. -/
theorem eval_replaceSides {rl : Bool} {f : Expr} (hpair : PairEquation f)
    (h : f.eval M ρ = M.bool false) :
    (replaceSides rl f).1.eval M ρ = (replaceSides rl f).2.eval M ρ := by
  unfold replaceSides
  split
  · rename_i f
    have htrue : f.eval M ρ = M.bool true := Model.negation_eq_false.1 h
    split
    · rename_i arg hf
      obtain ⟨e, e', d, rfl⟩ := hpair arg hf
      have heq := eval_equationArgument hf htrue
      rw [Expr.eval, Expr.eval, Expr.eval, M.projection_fst, M.projection_snd] at heq
      cases rl with
      | true => exact heq.symm
      | false => exact heq
    · exact htrue
  · exact h

theorem closed_lhs {rl : Bool} {f : Expr} (h : f.Closed) : (replaceSides rl f).1.Closed := by
  have hargs1 : ∀ {arg : Expr}, arg.Closed → (args1 arg).Closed := by
    intro arg harg
    unfold args1
    split
    · exact (Set.union_empty_iff.1 harg).1
    · rfl
    · exact harg
  have hargs2 : ∀ {arg : Expr}, arg.Closed → (args2 arg).Closed := by
    intro arg harg
    unfold args2
    split
    · exact (Set.union_empty_iff.1 (Set.union_empty_iff.1 harg).2).1
    · rfl
  have harg : ∀ {f arg : Expr}, equationArgument f = some arg → f.Closed → arg.Closed := by
    intro f arg hf hclosed
    unfold equationArgument at hf
    split at hf <;> cases hf
    · exact hclosed
    · exact hclosed
    · exact (Set.union_empty_iff.1 hclosed).2
  unfold replaceSides
  split
  · split
    · rename_i hf
      cases rl with
      | true => exact hargs2 (harg hf h)
      | false => exact hargs1 (harg hf h)
    · exact h
  · exact h

/-! ### The loop -/

theorem unview_view (x : SFormula) : unview x.view = some x := by
  unfold unview SFormula.view
  cases x.formula.isNegation <;> rfl

theorem sign_view (x : SFormula) : x.view.sign = !x.formula.isNegation := by
  unfold SForm.sign SFormula.view
  cases x.formula.isNegation <;> rfl

section Loop

variable {a : ReplaceArgs} {n : ℕ} {lhs rhs : Expr} {sformnum : ℤ} {sformnums : List Fnum}

theorem replaceLoop_cons (x : SFormula) (sforms : List SFormula) (pos neg : ℤ) :
    replaceLoop C a n lhs rhs sformnum sformnums (x :: sforms) pos neg =
      (if sformnum = (⟨x.view, pos, neg⟩ : Position SFormula Unit).number ∨
          (⟨x.view, pos, neg⟩ : Position SFormula Unit).selected sformnums = false then x
        else replaceSForm C a n lhs rhs x) ::
        replaceLoop C a n lhs rhs sformnum sformnums sforms
          (if x.view.sign then pos + 1 else pos) (if x.view.sign then neg else neg - 1) := by
  rw [replaceLoop, Position.number, Position.selected, sign_view]
  cases x.formula.isNegation <;> rfl

theorem eval_replaceSForm {x : SFormula}
    (h : (replaceExpr C a.useRationals n lhs rhs x.formula []).eval M ρ = x.formula.eval M ρ) :
    (replaceSForm C a n lhs rhs x).formula.eval M ρ = x.formula.eval M ρ := by
  unfold replaceSForm
  dsimp only
  split
  · rfl
  · exact h

/-- The loop keeps the values of the formulas. -/
theorem map_eval_replaceLoop {sforms : List SFormula} {pos neg : ℤ}
    (h : ∀ p ∈ positions (sforms.map SFormula.view) pos neg, p.selected sformnums = true →
      p.number ≠ sformnum → ∀ y, unview p.sform = some y →
        (replaceExpr C a.useRationals n lhs rhs y.formula []).eval M ρ = y.formula.eval M ρ) :
    (replaceLoop C a n lhs rhs sformnum sformnums sforms pos neg).map
      (fun y => y.formula.eval M ρ) = sforms.map fun y => y.formula.eval M ρ := by
  induction sforms generalizing pos neg with
  | nil => rfl
  | cons x sforms ih =>
    rw [replaceLoop_cons, List.map_cons, List.map_cons,
      ih fun p hp => h p (List.mem_cons_of_mem _ hp)]
    congr 1
    split
    · rfl
    · rename_i hreplaced
      rw [not_or, Bool.not_eq_false] at hreplaced
      exact eval_replaceSForm
        (h _ List.mem_cons_self hreplaced.2 (Ne.symm hreplaced.1) x (unview_view x))

/-- The formula that is used remains. -/
theorem mem_replaceLoop {sforms : List SFormula} {pos neg : ℤ} {p : Position SFormula Unit}
    (hp : p ∈ positions (sforms.map SFormula.view) pos neg) (hnumber : p.number = sformnum)
    {x : SFormula} (hx : unview p.sform = some x) :
    x ∈ replaceLoop C a n lhs rhs sformnum sformnums sforms pos neg := by
  induction sforms generalizing pos neg with
  | nil => cases hp
  | cons y sforms ih =>
    rw [replaceLoop_cons]
    obtain rfl | hp := List.mem_cons.1 hp
    · rw [unview_view, Option.some_inj] at hx
      rw [if_pos (.inl hnumber.symm), hx]
      exact List.mem_cons_self
    · exact List.mem_cons_of_mem _ (ih hp)

end Loop

/-- What numbers select has one of them. -/
theorem number_mem_of_selected {ns : List ℤ} {p : Position SFormula Unit}
    (h : p.selected (ns.map .num) = true) : p.number ∈ ns := by
  have hsym : ∀ name, Fnum.sym name ∉ ns.map Fnum.num := fun _ h => by simp at h
  have hnum : ∀ k, Fnum.num k ∈ ns.map Fnum.num → k ∈ ns := by
    intro k h
    obtain ⟨k', hk', e⟩ := List.mem_map.1 h
    exact Fnum.num.inj e ▸ hk'
  have hlabel : (p.sform.label.any fun lbl => Fnum.sym lbl ∈ ns.map Fnum.num) = false :=
    List.any_eq_false.2 fun lbl _ => by simp [hsym lbl]
  have hselected := (inSformnums_iff (hsym "*") p.sform p.pos p.neg).1 h
  rw [Position.number, sign_eq]
  split at hselected
  · rename_i hsign
    rw [hsign]
    obtain h | h | h := hselected
    · exact absurd h (hsym _)
    · exact hnum _ h
    · exact absurd h (by rw [hlabel]; decide)
  · rename_i hsign
    rw [Bool.not_eq_true] at hsign
    rw [hsign]
    obtain h | h | h := hselected
    · exact absurd h (hsym _)
    · exact hnum _ h
    · exact absurd h (by rw [hlabel]; decide)

/-- The formula that is used, by its number. -/
theorem exists_position_of_source {a : ReplaceArgs} {s : Goal} {sformnum : ℤ} {x : SFormula}
    (h : a.source s = some (sformnum, x)) :
    ∃ p ∈ positions (s.sForms.map SFormula.view) 1 (-1),
      p.number = sformnum ∧ unview p.sform = some x := by
  obtain ⟨k, -, h⟩ := Option.bind_eq_some_iff.1 h
  obtain ⟨y, hy, h⟩ := Option.bind_eq_some_iff.1 h
  obtain ⟨x', hx, h⟩ := Option.bind_eq_some_iff.1 h
  cases h
  rw [selectSeq_eq] at hy
  obtain ⟨p, hp, rfl⟩ := List.mem_map.1 (List.mem_of_head? hy)
  rw [List.mem_filter] at hp
  exact ⟨p, hp.1, List.mem_singleton.1 (number_mem_of_selected hp.2), hx⟩

theorem mem_of_position {l : List SFormula} {pos neg : ℤ} {p : Position SFormula Unit}
    (hp : p ∈ positions (l.map SFormula.view) pos neg) {x : SFormula}
    (hx : unview p.sform = some x) : x ∈ l := by
  have hmem : p.sform ∈ l.map SFormula.view := by
    rw [← map_sform_positions (l.map SFormula.view) pos neg]
    exact List.mem_map_of_mem hp
  obtain ⟨y, hy, e⟩ := List.mem_map.1 hmem
  rw [← e, unview_view, Option.some_inj] at hx
  exact hx ▸ hy

/-! ### The rule -/

section Rule

variable {a : ReplaceArgs} {n : ℕ} {s s' : Goal} {sformnum : ℤ} {x : SFormula}

/-- Where the formula that is used is false, every formula keeps its value. -/
theorem map_eval_newSForms (hclosed : ∀ y ∈ s.sForms, y.formula.Closed)
    (hn : ∀ y ∈ s.sForms, ∀ u ∈ y.formula.bound, u < n) (hsuitable : a.Suitable C s)
    (hsource : a.source s = some (sformnum, x)) (hx : x.formula.eval M ρ = M.bool false) :
    (newSForms C a n s sformnum x).map (fun y => y.formula.eval M ρ) =
      s.sForms.map fun y => y.formula.eval M ρ := by
  obtain ⟨hpair, htargets⟩ := hsuitable sformnum x hsource
  obtain ⟨q, hq, -, hqx⟩ := exists_position_of_source hsource
  have hxclosed := hclosed x (mem_of_position hq hqx)
  have hsides : ∀ ρ' : ℕ → D, (replaceSides a.rl x.formula).1.eval M ρ' =
      (replaceSides a.rl x.formula).2.eval M ρ' := by
    intro ρ'
    exact eval_replaceSides hpair ((hxclosed.eval_eq ρ' ρ).trans hx)
  apply map_eval_replaceLoop
  intro p hp hselected hne y hy
  have hmem := mem_of_position hp hy
  apply eval_replaceExpr (closed_lhs hxclosed) hsides
  · rw [hclosed y hmem]
    exact fun u hu => nomatch hu
  · exact hn y hmem
  · exact htargets p hp (number_mem_of_selected hselected) hne y hy

theorem source_mem_newSForms (hsource : a.source s = some (sformnum, x)) :
    x ∈ newSForms C a n s sformnum x := by
  obtain ⟨p, hp, hnumber, hx⟩ := exists_position_of_source hsource
  exact mem_replaceLoop hp hnumber hx

theorem forall_of_map_eval_eq {l l' : List SFormula}
    (h : l.map (fun y => y.formula.eval M ρ) = l'.map fun y => y.formula.eval M ρ) :
    (∀ y ∈ l, y.formula.eval M ρ = M.bool false) ↔
      ∀ y ∈ l', y.formula.eval M ρ = M.bool false := by
  have key : ∀ l : List SFormula, (∀ y ∈ l, y.formula.eval M ρ = M.bool false) ↔
      ∀ v ∈ l.map (fun y => y.formula.eval M ρ), v = M.bool false := by
    intro l
    rw [List.forall_mem_map]
  rw [key, key, h]

/-- The step keeps the formulas or hides the one that is used. -/
theorem refuted_replaceStep (hstep : replaceStep C a n s = some s') :
    ∃ sformnum x, a.source s = some (sformnum, x) ∧
      (s'.Refuted M ρ ↔ (∀ y ∈ newSForms C a n s sformnum x, y.formula.eval M ρ = M.bool false) ∧
        ∀ y ∈ s.hiddenSForms, y.formula.eval M ρ = M.bool false) := by
  unfold replaceStep at hstep
  cases hsource : a.source s with
  | none =>
    rw [hsource] at hstep
    cases hstep
  | some found =>
    obtain ⟨sformnum, x⟩ := found
    rw [hsource] at hstep
    refine ⟨sformnum, x, rfl, ?_⟩
    have hmem := source_mem_newSForms (C := C) (n := n) hsource
    dsimp only at hstep
    split at hstep
    · cases hstep
    · split at hstep
      · cases hstep
      · split at hstep
        · cases hstep
          unfold Goal.Refuted
          dsimp only
          rw [List.forall_mem_append]
          have hfilter : (∀ y ∈ (newSForms C a n s sformnum x).filter (fun y => y ≠ x),
              y.formula.eval M ρ = M.bool false) ∧ x.formula.eval M ρ = M.bool false ↔
              ∀ y ∈ newSForms C a n s sformnum x, y.formula.eval M ρ = M.bool false := by
            constructor
            · rintro ⟨h, hx⟩ y hy
              by_cases hyx : y = x
              · exact hyx ▸ hx
              · exact h y (List.mem_filter.2 ⟨hy, by simp [hyx]⟩)
            · exact fun h => ⟨fun y hy => h y (List.mem_filter.1 hy).1, h x hmem⟩
          split
          · rename_i hhidden
            obtain ⟨y, hy, heq⟩ := List.any_eq_true.1 hhidden
            rw [← hfilter, and_assoc]
            apply and_congr_right
            intro _
            constructor
            · exact fun h => ⟨(eval_of_tcEq heq).trans (h y hy), h⟩
            · exact fun h => h.2
          · rw [List.forall_mem_cons, ← and_assoc, hfilter]
        · cases hstep
          unfold Goal.Refuted
          rw [List.forall_mem_append]

end Rule

/-- `(replace -1)` -/
def replaceFirst : ReplaceArgs := ⟨.num (-1), .atom (.sym "*"), false, false, false, true⟩

/-- With `c = x` for a constant `x`, the bound `x` of `q(c, x)` is renamed. -/
def captureGoal : Goal where
  sForms := [
    ⟨.connective .negation
      (.connective .equation (.tuple (.cons (.const ⟨"c", 0⟩) (.cons (.const ⟨"x", 1⟩) .nil)))), []⟩,
    ⟨.binding .forAll ⟨[⟨"x", 0, 0⟩], by decide⟩ (.app (.const ⟨"q", 2⟩)
      (.tuple (.cons (.const ⟨"c", 0⟩) (.cons (.var ⟨"x", 0, 0⟩) .nil)))), []⟩]
  hiddenSForms := []

def renamedGoal : Goal where
  sForms := [
    ⟨.connective .negation
      (.connective .equation (.tuple (.cons (.const ⟨"c", 0⟩) (.cons (.const ⟨"x", 1⟩) .nil)))), []⟩,
    ⟨.binding .forAll ⟨[⟨"x1", 0, 1⟩], by decide⟩ (.app (.const ⟨"q", 2⟩)
      (.tuple (.cons (.const ⟨"x", 1⟩) (.cons (.var ⟨"x1", 0, 1⟩) .nil)))), []⟩]
  hiddenSForms := []

/-- Values by which an update of a component differs from other ones. -/
inductive Tree
  | bool (b : Bool)
  | number (q : ℚ)
  | arith (op : ArithOp)
  | iff
  | index (i : ℕ)
  | nil
  | cons (a d : Tree)
  deriving DecidableEq

namespace Tree

def head : Tree → Tree
  | cons a _ => a
  | _ => nil

def tail : Tree → Tree
  | cons _ d => d
  | _ => nil

def numbers : Tree → List ℚ
  | number q => [q]
  | cons (number q) d => q :: d.numbers
  | _ => []

def apply : Tree → Tree → Tree
  | arith op, v => number (op.apply v.numbers)
  | iff, v => bool (v.head = v.tail.head)
  | _, v => v

/-- Whether the first assignment is to a component. -/
def isIndexed : Tree → Bool
  | cons (cons (cons (index _) _) _) _ => true
  | _ => false

theorem numbers_map (qs : List ℚ) : ((qs.map number).foldr cons nil).numbers = qs := by
  induction qs with
  | nil => rfl
  | cons q qs ih => rw [List.map_cons, List.foldr_cons, numbers, ih]

/-- The constants are one number, and an update says whether it is one of a tuple. -/
def model : Model Tree where
  bool := bool
  bool_ne := by decide
  const _ := number 1
  number := number
  arith := arith
  iff := iff
  projAssign := index
  fieldAssign _ := nil
  accessorAssign _ := nil
  nil := nil
  cons := cons
  app := apply
  unary
    | .projection 1, v => v.head
    | .projection 2, v => v.tail.head
    | _, v => v
  tuple v := v
  record v := v
  update _ as := bool as.isIndexed
  assignment args _ := args
  binding _ _ f := f fun _ => nil
  cases v _ _ := v
  selection _ _ f := f fun _ => nil
  projection_fst _ _ := rfl
  projection_snd _ _ _ := rfl
  app_iff v h := by simpa [apply] using h
  app_number _ _ _ := rfl
  app_numbers op qs _ := by rw [apply, numbers_map]

end Tree

def oneEqualsC : SFormula where
  formula := .connective .negation
    (.connective .equation (.tuple (.cons (.number 1) (.cons (.const ⟨"c", 0⟩) .nil))))
  label := []

/-- `p(t WITH [i := 5])` -/
def updatedAt (i : Expr) : SFormula where
  formula := .app (.const ⟨"p", 1⟩) (.update (.const ⟨"t", 2⟩)
    (.cons (.assignment (.cons (.cons i .nil) .nil) (.number 5)) .nil))
  label := []

def indexGoal (i : Expr) : Goal := ⟨[oneEqualsC, updatedAt i], []⟩

end PVS.Prover
